import TextGrammar.Proofs.Keeps

/-!
# Loops keep contracts

A repetition, a block or a procedure keeps a contract if each grammar that it applies in some round
does. The rounds are taken by induction: what is left after one is where the next begins, and what
the next applies the whole loop applies.
-/

namespace TextGrammar.Grammar

open Procedure

variable {c : Contract} {rules : Rules} {P : Grammar × Text → Prop} {n : Nat}

/-- The repetitions left to do are those of bounds that count down. -/
theorem kept_repeatWithin {g : Grammar} (bounds : Bounds) {s : Text}
    (hg : Keeps c rules P n g) (hle : bounds.least ≤ bounds.most)
    (hparts : ∀ a, Applies rules (.repeated g bounds, s) a → ∀ b, Applied rules a b → P b) :
    c.Kept s ((g.parserWithin rules n).repeatWithin bounds.least bounds.most s) := by
  generalize hm : bounds.most = most
  induction most generalizing bounds s with
  | zero =>
    rw [Parser.repeatWithin_zero]
    exact Contract.kept_success Contract.leaves_refl
  | succ most ih =>
    have hpos : 0 < bounds.most := by omega
    apply Parser.kept_repeatWithin_succ (hg s (hparts _ (.repeated hle hpos)))
    intro value t hx
    refine ih (.between (bounds.least - 1) (bounds.most - 1)) ?_ ?_ ?_
    · change bounds.least - 1 ≤ bounds.most - 1
      omega
    · intro a ha
      exact hparts a (.repeatedAgain hle hpos (leaves_of_ending hx) ha)
    · change bounds.most - 1 = most
      omega

theorem keeps_repeated (h : c.Admits rules P) {g : Grammar} (bounds : Bounds)
    (hg : Keeps c rules P n g) : Keeps c rules P n (repeated g bounds) := by
  intro s hP
  apply Parser.kept_map
  unfold Parser.repeated
  split
  · next hle => exact kept_repeatWithin bounds hg hle fun a ha => forall_applied_of_applies hP ha
  · next hlt =>
    exact Contract.kept_fault (h.repeated g bounds s (hP _ .refl) (Nat.lt_of_not_le hlt))

theorem kept_manyUntil {g stop : Grammar} {s : Text} (rounds : Nat)
    (hg : Keeps c rules P n g) (hstop : Keeps c rules P n stop)
    (hparts : ∀ a, Applies rules (.manyUntil g stop, s) a → ∀ b, Applied rules a b → P b) :
    c.Kept s ((g.parserWithin rules n).manyUntil (stop.parserWithin rules n) rounds s) := by
  induction rounds generalizing s with
  | zero => exact Contract.kept_cutOff
  | succ rounds ih =>
    apply Parser.kept_manyUntil_succ (hstop s (hparts _ .stop))
    · intro error hs
      exact hg s (hparts _ (.manyUntil (refuses_of_ending hs)))
    · intro error value t hs hx
      apply ih
      intro a ha
      exact hparts a (.manyUntilAgain (refuses_of_ending hs) (leaves_of_ending hx) ha)

theorem keeps_manyUntil {g stop : Grammar} (hg : Keeps c rules P n g)
    (hstop : Keeps c rules P n stop) : Keeps c rules P n (manyUntil g stop) := by
  intro s hP
  apply Parser.kept_map
  exact kept_manyUntil n hg hstop fun a ha => forall_applied_of_applies hP ha

/-- The loop goes on from a text `t` that the repeated grammar has just left. -/
theorem kept_afterSeparators {g separator : Grammar} {s t : Text} (rounds : Nat)
    (hg : Keeps c rules P n g) (hsep : Keeps c rules P n separator)
    (hparts : ∀ a, Applies rules (.sepBy g separator, s) a → ∀ b, Applied rules a b → P b)
    (hst : g.Leaves rules s t) :
    c.Kept t ((g.parserWithin rules n).afterSeparators (separator.parserWithin rules n) rounds
      t) := by
  induction rounds generalizing s t with
  | zero => exact Contract.kept_cutOff
  | succ rounds ih =>
    apply Parser.kept_afterSeparators_succ (hsep t (hparts _ (.separator hst)))
    · intro found u hs
      exact hg u (hparts _ (.sepByAgain hst (leaves_of_ending hs) .sepBy))
    · intro found u value t' hs hx
      apply ih (s := u)
      · intro a ha
        exact hparts a (.sepByAgain hst (leaves_of_ending hs) ha)
      · exact leaves_of_ending hx

theorem keeps_sepBy {g separator : Grammar} (hg : Keeps c rules P n g)
    (hsep : Keeps c rules P n separator) : Keeps c rules P n (sepBy g separator) := by
  intro s hP
  have hparts := fun a => forall_applied_of_applies (b := a) hP
  apply Parser.kept_map
  apply Parser.kept_sepBy (hg s (hparts _ .sepBy))
  intro value t hx
  exact kept_afterSeparators n hg hsep hparts (leaves_of_ending hx)

theorem kept_proceed (asks : List Value → Option Grammar) (s : Text) {t : Text}
    {procedure : Procedure (List Value) Value Value}
    (hresume : ∀ state value, (procedure.resume state value).Ends (fun (next, step) =>
      next = state ++ value.toList ∧ ∀ p, step = .yield p →
        ∃ g, asks next = some g ∧ p = g.parserWithin rules n) c.faults)
    (hkeep : ∀ received t g, Received rules asks s received t → asks received = some g →
      c.Kept t (g.parserWithin rules n t))
    (hcount : ∀ received t u g, Received rules asks s received t → asks received = some g →
      g.Leaves rules t u → countLimit ≤ received.length + 1 → c.faults .countOverflow)
    (rounds : Nat) {steps : Nat} {state : List Value} {value : Option Value}
    (hreceived : Received rules asks s (state ++ value.toList) t)
    (hsteps : (state ++ value.toList).length = steps) :
    c.Kept t (procedure.proceed rounds steps state value t) := by
  induction rounds generalizing steps state value t with
  | zero => exact Contract.kept_cutOff
  | succ rounds ih =>
    apply Procedure.kept_proceed_succ
    apply Run.Ends.mono (hresume state value)
    · rintro ⟨next, step⟩ _ ⟨rfl, hasks⟩ p hp
      obtain ⟨g, hg, rfl⟩ := hasks p hp
      refine ⟨hkeep _ t g hreceived hg, fun found u hx => Procedure.ends_countUp ?_ ?_⟩
      · intro hlt
        apply ih (hreceived.next hg (returns_of_ending hx) (hsteps ▸ hlt))
        rw [Option.toList_some, List.length_append, List.length_singleton, hsteps]
      · intro hle
        exact hcount _ t u g hreceived hg (leaves_of_ending hx) (hsteps ▸ hle)
    · exact fun _ hf => hf

theorem keeps_block (h : c.Admits rules P) {steps : List (List Value → Grammar)}
    (finish : List Value → Value)
    (hs : ∀ step ∈ steps, ∀ bound, Keeps c rules P n (step bound)) :
    Keeps c rules P n (block steps finish) := by
  intro s hP
  have hstart : Received rules (blockAsks steps) s [] s := .start
  refine kept_proceed (n := n) (blockAsks steps) s ?_ ?_ ?_ _ hstart rfl
  · intro state value
    simp only [Block.procedure, denoteSteps_getElem?]
    cases hstep : steps[(state ++ value.toList).length]? with
    | none => exact ⟨rfl, fun p hp => by cases hp⟩
    | some step =>
      refine ⟨rfl, fun p hp => ⟨step (state ++ value.toList), ?_, ?_⟩⟩
      · exact Option.map_eq_some_iff.2 ⟨step, hstep, rfl⟩
      · cases hp
        rfl
  · intro received t g hr hg
    obtain ⟨step, hstep, rfl⟩ := Option.map_eq_some_iff.1 hg
    exact (hs step (List.mem_of_getElem? hstep) received).part hP (.step hr hg)
  · intro received t u g hr hg hl hle
    exact h.count (block steps finish) s (hP _ .refl) (.block hr hg hl hle)

theorem procedureAsks_eq_some_iff {next : List Value → Step Grammar Value}
    {received : List Value} {g : Grammar} :
    procedureAsks next received = some g ↔ next received = .yield g := by
  unfold procedureAsks
  cases next received with
  | yield asked => simp
  | done output => simp

theorem keeps_procedure (h : c.Admits rules P) {next : List Value → Step Grammar Value}
    (hn : ∀ received g, next received = .yield g → Keeps c rules P n g) :
    Keeps c rules P n (procedure next) := by
  intro s hP
  have hstart : Received rules (procedureAsks next) s [] s := .start
  refine kept_proceed (n := n) (procedureAsks next) s ?_ ?_ ?_ _ hstart rfl
  · intro state value
    apply Run.ends_note_bind.2
    refine ⟨rfl, fun p hp => ?_⟩
    cases hstep : next (state ++ value.toList) with
    | yield g =>
      rw [hstep] at hp
      cases hp
      exact ⟨g, procedureAsks_eq_some_iff.2 hstep, rfl⟩
    | done output =>
      rw [hstep] at hp
      cases hp
  · intro received t g hr hg
    exact (hn received g (procedureAsks_eq_some_iff.1 hg)).part hP (.asked hr hg)
  · intro received t u g hr hg hl hle
    exact h.count (procedure next) s (hP _ .refl) (.procedure hr hg hl hle)

end TextGrammar.Grammar
