import Mathlib.Data.List.Forall2
import TextGrammar.Proofs.BlockRuns
import TextGrammar.Proofs.Induction

/-!
# Blocks are nested binds

A block ends as the binds do that its steps stand for, each inside the one before it. The same holds
of a grammar in which blocks are steps of blocks, when all of them are written as binds. Binds do
not count, so a block with more steps than are counted stops where the binds go on.
-/

namespace TextGrammar

open Procedure

namespace Run

variable {α β : Type}

/-- The run ends as the other one, except that where `c` holds it may be stopped by its count. -/
def EndsAs (c : Prop) (x y : Run α) : Prop :=
  x.ending = y.ending ∨ c ∧ x.ending = .faults .countOverflow

variable {c c' : Prop} {x y z : Run α}

theorem EndsAs.mono (h : x.EndsAs c y) (hc : c → c') : x.EndsAs c' y :=
  h.imp_right (And.imp_left hc)

theorem EndsAs.ending_eq (h : x.EndsAs c y) (hc : ¬ c) : x.ending = y.ending :=
  h.resolve_right fun hcount => hc hcount.1

theorem EndsAs.trans (hxy : x.EndsAs c y) (hyz : y.EndsAs c z) : x.EndsAs c z := by
  rcases hxy with hxy | hcount
  · exact hyz.imp hxy.trans (And.imp_right hxy.trans)
  · exact Or.inr hcount

theorem EndsAs.bind {f g : α → Run β} (hxy : x.EndsAs c y)
    (hfg : ∀ a, x.ending = .returns a → (f a).EndsAs c (g a)) :
    (x >>= f).EndsAs c (y >>= g) := by
  unfold EndsAs
  rw [ending_bind, ending_bind]
  rcases hxy with hxy | ⟨hc, hx⟩
  · rw [← hxy]
    cases hx : x.ending with
    | returns a => exact hfg a hx
    | faults fault => exact Or.inl rfl
    | unfinished => exact Or.inl rfl
  · rw [hx]
    exact Or.inr ⟨hc, rfl⟩

end Run

namespace Parser

variable {α β : Type} {p q : Parser α} {f g : α → Parser β} {s : Text}

theorem endsAs_bind {c : Prop} (hp : (p s).EndsAs c (q s))
    (hf : ∀ value t, (f value t).EndsAs c (g value t)) :
    (p.bind f s).EndsAs c (q.bind g s) := by
  apply hp.bind
  intro o _
  cases o with
  | success value t => exact hf value t
  | failure error => exact Or.inl rfl

theorem ending_bind_congr (hp : (p s).ending = (q s).ending)
    (hf : ∀ value t, (f value t).ending = (g value t).ending) :
    (p.bind f s).ending = (q.bind g s).ending :=
  (endsAs_bind (c := False) (Or.inl hp) fun value t => Or.inl (hf value t)).ending_eq id

end Parser

namespace Block

variable {ν ω : Type}

/-- The binds that the steps stand for, after the values in `bound`. -/
def bindsFrom (finish : List ν → ω) : List (List ν → Run (Parser ν)) → List ν → Parser ω
  | [], bound => Parser.pure (finish bound)
  | step :: steps, bound =>
    (ask step bound).bind fun value => bindsFrom finish steps (bound ++ [value])

def nestedBinds (block : Block ν ω) : Parser ω := bindsFrom block.finish block.steps []

/-- On `input` one more step succeeds than are counted. -/
def Overflows (block : Block ν ω) (input : Text) : Prop :=
  ∃ bound s log step value t, block.Reached input bound s log ∧
    block.steps[bound.length]? = some step ∧
    (ask step bound s).ending = .returns (.success value t) ∧ countLimit ≤ bound.length + 1

variable {block : Block ν ω} {input : Text}

theorem Overflows.le_length (h : block.Overflows input) : countLimit ≤ block.steps.length := by
  obtain ⟨bound, _, _, step, _, _, _, hstep, _, hcount⟩ := h
  obtain ⟨hlt, _⟩ := List.getElem?_eq_some_iff.1 hstep
  exact Nat.le_trans hcount hlt

theorem Overflows.ending_eq (h : block.Overflows input) :
    (block.parser input).ending = .faults .countOverflow := by
  obtain ⟨_, _, _, _, _, _, hreached, hstep, hx, hcount⟩ := h
  rw [transcript_iff.1 (.overflowed hreached hstep hx hcount)]

theorem endsAs_parserFrom {bound : List ν} {s : Text} {log : List Event}
    (rest : List (List ν → Run (Parser ν))) (h : block.Reached input bound s log)
    (hrest : block.steps.drop bound.length = rest) :
    (block.parserFrom bound s).EndsAs (block.Overflows input)
      (bindsFrom block.finish rest bound s) := by
  induction rest generalizing bound s log with
  | nil =>
    have hlen : bound.length = block.steps.length :=
      Nat.le_antisymm h.length_le (List.drop_eq_nil_iff.1 hrest)
    rw [block.parserFrom_of_length_eq hlen]
    exact Or.inl rfl
  | cons step rest ih =>
    have hstep : block.steps[bound.length]? = some step := by
      rw [← List.head?_drop, hrest]
      rfl
    rw [block.parserFrom_of_step hstep]
    apply Run.EndsAs.bind (Or.inl rfl)
    intro o hx
    cases o with
    | success value t =>
      rcases Nat.lt_or_ge (bound.length + 1) countLimit with hcount | hcount
      · rw [goOn, countUp_of_lt hcount, LawfulMonad.pure_bind]
        apply ih (h.next hstep hx hcount)
        rw [List.length_append, List.length_singleton, ← List.drop_drop, hrest]
        rfl
      · rw [goOn, countUp_of_le hcount]
        exact Or.inr ⟨⟨bound, s, log, step, value, t, h, hstep, hx, hcount⟩, rfl⟩
    | failure error => exact Or.inl rfl

theorem endsAs_nestedBinds (block : Block ν ω) (input : Text) :
    (block.parser input).EndsAs (block.Overflows input) (block.nestedBinds input) :=
  endsAs_parserFrom block.steps .start rfl

theorem ending_eq_nestedBinds (block : Block ν ω) (hlength : block.steps.length < countLimit)
    (s : Text) : (block.parser s).ending = (block.nestedBinds s).ending :=
  (block.endsAs_nestedBinds s).ending_eq fun h => Nat.not_le.2 hlength h.le_length

end Block

namespace Grammar

def bindsFrom (finish : List Value → Value) :
    List (List Value → Grammar) → List Value → Grammar
  | [], bound => always (finish bound)
  | step :: steps, bound => bind (step bound) fun value => bindsFrom finish steps (bound ++ [value])

mutual

/-- A block as nested binds, and so each block that is a step of it, at any depth. -/
def unrolled : Grammar → Grammar
  | block steps finish => bindsFrom finish (unrolledSteps steps) []
  | g => g

def unrolledSteps : List (List Value → Grammar) → List (List Value → Grammar)
  | [] => []
  | step :: steps => (fun bound => unrolled (step bound)) :: unrolledSteps steps

end

variable (rules : Rules) (n : Nat)

/-- The blocks that are written as binds, the grammar itself and the steps of its steps, do not have
more steps than are counted. -/
inductive HasFewSteps : Grammar → Prop
  | block {steps : List (List Value → Grammar)} {finish : List Value → Value} :
    steps.length < countLimit → (∀ step ∈ steps, ∀ bound, HasFewSteps (step bound)) →
    HasFewSteps (block steps finish)
  | other {g : Grammar} : (∀ steps finish, g ≠ block steps finish) → HasFewSteps g

variable {rules n} {steps : List (List Value → Grammar)} {finish : List Value → Value}

theorem HasFewSteps.length_lt (h : (Grammar.block steps finish).HasFewSteps) :
    steps.length < countLimit := by
  cases h with
  | block hlength _ => exact hlength
  | other h => exact absurd rfl (h steps finish)

theorem HasFewSteps.step (h : (Grammar.block steps finish).HasFewSteps)
    {step : List Value → Grammar} (hstep : step ∈ steps) (bound : List Value) :
    (step bound).HasFewSteps := by
  cases h with
  | block _ hsteps => exact hsteps step hstep bound
  | other h => exact absurd rfl (h steps finish)

end Grammar

end TextGrammar
