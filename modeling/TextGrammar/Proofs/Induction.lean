import TextGrammar.Grammar.Denotation

/-!
# Induction over grammars

The parts of a grammar are the grammars it is written with, and those that its functions choose.
What holds of a grammar whenever it holds of its parts holds of every grammar; a rule has no parts,
so references are followed by induction on the allowance. The parser of a grammar is put together
from the parsers of its parts, all within the same allowance.
-/

namespace TextGrammar

/-- The parser or grammar of a field, whether its value is kept or skipped. -/
def Field.content {π : Type} : Field π π → π
  | .keep _ kept => kept
  | .skip skipped => skipped

namespace Grammar

@[elab_as_elim]
theorem induct {motive : Grammar → Prop}
    (leaf : ∀ scanner, motive (leaf scanner))
    (map : ∀ f g, motive g → motive (map f g))
    (bind : ∀ g f, motive g → (∀ value, motive (f value)) → motive (bind g f))
    (peek : ∀ g, motive g → motive (peek g))
    (orElse : ∀ first others, motive first → (∀ g ∈ others, motive g) →
      motive (orElse first others))
    (nearest : ∀ alternatives, (∀ g ∈ alternatives, motive g) → motive (nearest alternatives))
    (seq : ∀ parts, (∀ g ∈ parts, motive g) → motive (seq parts))
    (pipe : ∀ parts, (∀ g ∈ parts, motive g) → motive (pipe parts))
    (repeated : ∀ g bounds, motive g → motive (repeated g bounds))
    (manyUntil : ∀ g stop, motive g → motive stop → motive (manyUntil g stop))
    (sepBy : ∀ g separator, motive g → motive separator → motive (sepBy g separator))
    (optional : ∀ g, motive g → motive (optional g))
    (ignore : ∀ g, motive g → motive (ignore g))
    (followedBy : ∀ g next, motive g → motive next → motive (followedBy g next))
    (before : ∀ g marker, motive g → motive marker → motive (before g marker))
    (trace : ∀ label g, motive g → motive (trace label g))
    (fields : ∀ fs, (∀ f ∈ fs, motive f.content) → motive (fields fs))
    (rule : ∀ name, motive (rule name))
    (immediate : ∀ g, motive g → motive (immediate g))
    (shared : ∀ g, motive g → motive (shared g))
    (block : ∀ steps finish, (∀ step ∈ steps, ∀ bound, motive (step bound)) →
      motive (block steps finish))
    (procedure : ∀ next, (∀ received g, next received = .yield g → motive g) →
      motive (procedure next)) (g : Grammar) : motive g :=
  @Grammar.rec motive (fun gs => ∀ g ∈ gs, motive g) (fun fs => ∀ f ∈ fs, motive f.content)
    (fun steps => ∀ step ∈ steps, ∀ bound, motive (step bound))
    (fun step => ∀ g, step = .yield g → motive g) (fun f => motive f.content)
    leaf map bind peek orElse nearest seq pipe repeated manyUntil sepBy optional ignore followedBy
    before trace fields rule immediate shared block procedure
    (by simp) (fun _ _ hg hgs => List.forall_mem_cons.2 ⟨hg, hgs⟩)
    (by simp) (fun _ _ hf hfs => List.forall_mem_cons.2 ⟨hf, hfs⟩)
    (by simp) (fun _ _ hs hss => List.forall_mem_cons.2 ⟨hs, hss⟩)
    (fun _ hg _ h => Step.yield.inj h ▸ hg) (fun _ _ h => by cases h)
    (fun _ _ hg => hg) (fun _ hg => hg) g

variable (rounds : Nat) (call : String → Parser Value)

theorem denoteAll_eq_map (gs : List Grammar) :
    denoteAll rounds call gs = gs.map (denote rounds call) := by
  induction gs with
  | nil => rfl
  | cons g gs ih => rw [denoteAll, ih, List.map_cons]

theorem length_denoteSteps (index : Nat) (steps : List (List Value → Grammar)) :
    (denoteSteps rounds call index steps).length = steps.length := by
  induction steps generalizing index with
  | nil => rfl
  | cons step steps ih => rw [denoteSteps, List.length_cons, List.length_cons, ih]

theorem denoteSteps_getElem? (index : Nat) (steps : List (List Value → Grammar)) (i : Nat) :
    (denoteSteps rounds call index steps)[i]? = steps[i]?.map fun step bound => do
      Run.note (.stepAsked (index + i) bound.length)
      return denote rounds call (step bound) := by
  induction steps generalizing index i with
  | nil => rfl
  | cons step steps ih =>
    cases i with
    | zero => rfl
    | succ i =>
      rw [denoteSteps, List.getElem?_cons_succ, List.getElem?_cons_succ, ih,
        Nat.add_right_comm, Nat.add_assoc]

end Grammar

end TextGrammar
