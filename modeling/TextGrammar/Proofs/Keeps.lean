import TextGrammar.Proofs.Application
import TextGrammar.Proofs.Combinators

/-!
# Grammars keep contracts

A grammar keeps a contract if the few places keep it where a run can end otherwise than its parts
do: errors of leaves and of the nearest choice, bounds in the wrong order, the cut of a bounded
parser, and the count of a block or a procedure. Each place is only asked about the texts it is
applied to.
-/

namespace TextGrammar

open Grammar

/-- Wherever a grammar is applied to a text with the property `P`, it does not break the contract
by itself. -/
structure Contract.Admits (c : Contract) (rules : Rules) (P : Grammar × Text → Prop) : Prop where
  leaf : ∀ scanner s error, P (.leaf scanner, s) → scanner.scan s = .failure error → c.errs error
  nearest : ∀ gs s, P (.nearest gs, s) → (∀ g ∈ gs, g.Refuses rules s) →
    c.errs (.noAlternative gs.length (Text.preview s))
  repeated : ∀ g bounds s, P (.repeated g bounds, s) → bounds.most < bounds.least →
    c.faults (.invertedBounds bounds.least bounds.most)
  before : ∀ g marker s after, P (.before g marker, s) → marker.Leaves rules s after →
    c.leaves s after →
    (Parser.span s after).Ends (fun part => ∀ t, c.leaves part t → c.leaves s t) c.faults
  count : ∀ g s, P (g, s) → Overflows rules (g, s) → c.faults .countOverflow

namespace Grammar

/-- Within the allowance `n`, the grammar keeps the contract on each text where all that is applied
has the property `P`. -/
def Keeps (c : Contract) (rules : Rules) (P : Grammar × Text → Prop) (n : Nat) (g : Grammar) :
    Prop :=
  ∀ s, (∀ b, Applied rules (g, s) b → P b) → c.Kept s (g.parserWithin rules n s)

variable {c : Contract} {rules : Rules} {P : Grammar × Text → Prop} {n : Nat}

theorem returns_of_ending {g : Grammar} {s : Text} {o : Outcome Value}
    (h : (g.parserWithin rules n s).ending = .returns o) : g.Returns rules s o := ⟨n, h⟩

theorem leaves_of_ending {g : Grammar} {s t : Text} {value : Value}
    (h : (g.parserWithin rules n s).ending = .returns (.success value t)) : g.Leaves rules s t :=
  ⟨value, n, h⟩

theorem refuses_of_ending {g : Grammar} {s : Text} {error : ParseError}
    (h : (g.parserWithin rules n s).ending = .returns (.failure error)) : g.Refuses rules s :=
  ⟨error, n, h⟩

theorem Keeps.part {g : Grammar} {s : Text} {a : Grammar × Text} (hg : Keeps c rules P n g)
    (h : ∀ b, Applied rules a b → P b) (ha : Applies rules a (g, s)) :
    c.Kept s (g.parserWithin rules n s) :=
  hg s (forall_applied_of_applies h ha)

theorem keeps_leaf (h : c.Admits rules P) (scanner : Scanner Value) :
    Keeps c rules P n (leaf scanner) := by
  intro s hP
  apply Parser.kept_ofScanner
  intro error he
  exact h.leaf scanner s error (hP _ .refl) he

theorem keeps_map (f : Value → Value) {g : Grammar} (hg : Keeps c rules P n g) :
    Keeps c rules P n (map f g) := by
  intro s hP
  exact Parser.kept_map f (hg.part hP .map)

theorem keeps_bind {g : Grammar} {f : Value → Grammar} (hg : Keeps c rules P n g)
    (hf : ∀ value, Keeps c rules P n (f value)) : Keeps c rules P n (bind g f) := by
  intro s hP
  apply Parser.kept_bind (hg.part hP .bind)
  intro value t hx
  exact (hf value).part hP (.bound (returns_of_ending hx))

theorem keeps_orElse {first : Grammar} {others : List Grammar} (hf : Keeps c rules P n first)
    (ho : ∀ g ∈ others, Keeps c rules P n g) : Keeps c rules P n (orElse first others) := by
  intro s hP
  -- Only what the choice applies matters: the tail of a choice is no part of it.
  have hparts := fun a => forall_applied_of_applies (b := a) hP
  clear hP
  induction others generalizing first with
  | nil => exact hf s (hparts _ .first)
  | cons second others ih =>
    apply Parser.kept_orElse_cons (hf s (hparts _ .first))
    intro error hx
    apply ih (ho second List.mem_cons_self) (fun g hg => ho g (List.mem_cons_of_mem _ hg))
    intro a ha
    exact hparts a (.other (refuses_of_ending hx) ha)

theorem ends_leastConsuming {gs : List Grammar} {s : Text}
    (hgs : ∀ g ∈ gs, Keeps c rules P n g)
    (hparts : ∀ a, Applies rules (.nearest gs, s) a → ∀ b, Applied rules a b → P b) :
    (Parser.leastConsuming (gs.map fun g => g.parserWithin rules n) s).Ends
      (Parser.BestOf c s (gs.map fun g => g.parserWithin rules n)) c.faults := by
  induction gs with
  | nil => simp [Parser.leastConsuming, Parser.BestOf]
  | cons g gs ih =>
    rw [List.map_cons]
    apply Parser.ends_leastConsuming_cons (hgs g List.mem_cons_self s (hparts _ .nearest))
    intro o hx
    apply ih fun g' hg' => hgs g' (List.mem_cons_of_mem _ hg')
    intro a ha
    exact hparts a (.nearestOther (returns_of_ending hx) ha)

theorem keeps_nearest (h : c.Admits rules P) {gs : List Grammar}
    (hgs : ∀ g ∈ gs, Keeps c rules P n g) : Keeps c rules P n (nearest gs) := by
  intro s hP
  change c.Kept s (Parser.nearest (denoteAll n (rules.call n) gs) s)
  rw [denoteAll_eq_map]
  apply Parser.kept_nearest
  · exact ends_leastConsuming hgs fun a ha => forall_applied_of_applies hP ha
  · intro hfail
    rw [List.length_map]
    apply h.nearest gs s (hP _ .refl)
    intro g hg
    obtain ⟨error, hx⟩ := hfail _ (List.mem_map_of_mem hg)
    exact refuses_of_ending hx

theorem keeps_pipe {parts : List Grammar} (hg : ∀ g ∈ parts, Keeps c rules P n g) :
    Keeps c rules P n (pipe parts) := by
  intro s hP
  apply Parser.kept_map
  have hparts := fun a => forall_applied_of_applies (b := a) hP
  clear hP
  induction parts generalizing s with
  | nil => exact Contract.kept_success Contract.leaves_refl
  | cons g parts ih =>
    apply Parser.kept_pipe_cons (hg g List.mem_cons_self s (hparts _ .pipe))
    intro value t hx
    apply ih fun g' hg' => hg g' (List.mem_cons_of_mem _ hg')
    intro a ha
    exact hparts a (.pipeOther (leaves_of_ending hx) ha)

theorem keeps_seq {parts : List Grammar} (hg : ∀ g ∈ parts, Keeps c rules P n g) :
    Keeps c rules P n (seq parts) := by
  intro s hP
  apply Parser.kept_map
  have hparts := fun a => forall_applied_of_applies (b := a) hP
  clear hP
  induction parts generalizing s with
  | nil => exact Contract.kept_success Contract.leaves_refl
  | cons g parts ih =>
    apply Parser.kept_seq_cons
    · apply ih fun g' hg' => hg g' (List.mem_cons_of_mem _ hg')
      intro a ha
      exact hparts a (.seqOther ha)
    · intro values t hx
      have hl : (Grammar.seq parts).Leaves rules s t :=
        leaves_of_ending (n := n) (Parser.ending_map_of_success Value.list hx)
      exact hg g List.mem_cons_self t (hparts _ (.seq hl))

theorem keeps_followedBy {g next : Grammar} (hg : Keeps c rules P n g)
    (hn : Keeps c rules P n next) : Keeps c rules P n (followedBy g next) := by
  intro s hP
  apply Parser.kept_bind (hg.part hP .followedBy)
  intro value t hx
  exact hn.part hP (.following (leaves_of_ending hx))

theorem keeps_before (h : c.Admits rules P) {g marker : Grammar} (hg : Keeps c rules P n g)
    (hm : Keeps c rules P n marker) : Keeps c rules P n (before g marker) := by
  intro s hP
  have hmarker := hm.part hP .marker
  apply Parser.kept_before hmarker
  intro value after hx
  have hl : marker.Leaves rules s after := leaves_of_ending hx
  apply Run.Ends.mono (h.before g marker s after (hP _ .refl) hl (hmarker.leaves_of_success hx))
  · intro part hspan hpart
    have hcut := Parser.span_eq_pure_of_ending hspan
    exact (hg.part hP (.before hl hcut)).mono hpart
  · exact fun _ hf => hf

theorem keeps_fields {fs : List (Field Grammar Grammar)}
    (hf : ∀ f ∈ fs, Keeps c rules P n f.content) : Keeps c rules P n (fields fs) := by
  intro s hP
  apply Parser.kept_map
  have hparts := fun a => forall_applied_of_applies (b := a) hP
  clear hP
  unfold Parser.fields
  generalize ([] : Record Value) = record
  induction fs generalizing s record with
  | nil => exact Contract.kept_success Contract.leaves_refl
  | cons f fs ih =>
    have hfirst : c.Kept s (f.content.parserWithin rules n s) :=
      hf f List.mem_cons_self s (hparts _ .field)
    have hrest : ∀ value t, (f.content.parserWithin rules n s).ending =
        .returns (.success value t) → ∀ record, c.Kept t
          (Parser.fieldsInto record (denoteFields n (rules.call n) fs) t) := by
      intro value t hx record
      apply ih fun f' hf' => hf f' (List.mem_cons_of_mem _ hf')
      intro a ha
      exact hparts a (.fieldOther (leaves_of_ending hx) ha)
    cases f with
    | keep key kept =>
      apply Parser.kept_bind hfirst
      intro value t hx
      exact hrest value t hx _
    | skip skipped =>
      apply Parser.kept_bind (Parser.kept_map _ hfirst)
      intro value t hx
      obtain ⟨found, hx, _⟩ := Parser.ending_of_map_success hx
      exact hrest found t hx _

end Grammar

end TextGrammar
