import Mathlib.Order.Filter.AtTopBot.Basic
import TextGrammar.Parser.Procedure
import TextGrammar.Parser.Repetition
import TextGrammar.Parser.Several
import TextGrammar.Proofs.Ends

/-!
# Simulation by runs of large allowances

A run is simulated by a family of runs, one for each allowance, if it is cut off, or else those of
all large allowances end as it does and log what is related to its log. A combinator applied to
simulated parsers is simulated, whatever allowances the loops on both sides are given.
-/

namespace TextGrammar

open Filter

/-- The label of the trace or the name of the rule that the event is about. -/
def Event.name? : Event → Option String
  | entered label _ | consumed label _ _ | failed label _ => some label
  | ruleBuilt name => some name
  | _ => none

/-- A relation between two logs, which may only treat events differently that have a name. -/
structure LogRelation where
  Holds : List Event → List Event → Prop
  nil : Holds [] []
  append {l l' m m' : List Event} : Holds l m → Holds l' m' → Holds (l ++ l') (m ++ m')
  unnamed {e : Event} : e.name? = none → Holds [e] [e]

namespace Run

variable {α β : Type} {L : LogRelation}

def emit (events : List Event) : Run Unit := ⟨events, .returns ()⟩

theorem emit_nil_bind (x : Run α) : (emit [] >>= fun _ => x) = x := LawfulMonad.pure_bind () _

def SimulatedBy (L : LogRelation) (x : Run α) (X : Nat → Run α) : Prop :=
  x.ending ≠ .unfinished → ∀ᶠ m in atTop, (X m).ending = x.ending ∧ L.Holds x.log (X m).log

variable {x : Run α} {X Y : Nat → Run α}

theorem simulated_of_unfinished (h : x.ending = .unfinished) : x.SimulatedBy L X :=
  fun hx => absurd h hx

theorem simulated_emit {events events' : List Event} (h : L.Holds events events') :
    (emit events).SimulatedBy L fun _ => emit events' :=
  fun _ => Eventually.of_forall fun _ => ⟨rfl, h⟩

theorem simulated_pure (a : α) : (pure a : Run α).SimulatedBy L fun _ => pure a :=
  fun _ => Eventually.of_forall fun _ => ⟨rfl, L.nil⟩

theorem simulated_fault (f : Fault) : (fault f : Run α).SimulatedBy L fun _ => fault f :=
  fun _ => Eventually.of_forall fun _ => ⟨rfl, L.nil⟩

theorem simulated_note {e : Event} (h : e.name? = none) :
    (note e).SimulatedBy L fun _ => note e :=
  simulated_emit (L.unnamed h)

theorem SimulatedBy.bind {f : α → Run β} {F : Nat → α → Run β} (hx : x.SimulatedBy L X)
    (hf : ∀ a, x.ending = .returns a → (f a).SimulatedBy L fun m => F m a) :
    (x >>= f).SimulatedBy L fun m => X m >>= F m := by
  intro hend
  cases hxe : x.ending with
  | returns a =>
    rw [bind_eq_of_returns f hxe] at hend ⊢
    filter_upwards [hx (by simp [hxe]), hf a hxe hend] with m hX hF
    rw [bind_eq_of_returns (F m) (hX.1.trans hxe)]
    exact ⟨hF.1, L.append hX.2 hF.2⟩
  | faults fault =>
    rw [bind_eq_of_faults f hxe]
    filter_upwards [hx (by simp [hxe])] with m hX
    rw [bind_eq_of_faults (F m) (hX.1.trans hxe)]
    exact ⟨rfl, hX.2⟩
  | unfinished =>
    rw [ending_bind, hxe] at hend
    exact absurd rfl hend

theorem SimulatedBy.congr (h : x.SimulatedBy L X) (hXY : ∀ᶠ m in atTop, X m = Y m) :
    x.SimulatedBy L Y := by
  intro hend
  filter_upwards [h hend, hXY] with m hX he
  rwa [← he]

theorem SimulatedBy.comp (h : x.SimulatedBy L X) {k : Nat → Nat} (hk : Tendsto k atTop atTop) :
    x.SimulatedBy L fun m => X (k m) :=
  fun hend => hk.eventually (h hend)

theorem SimulatedBy.of_succ {F : Nat → Nat → Run α} {rounds : Nat} {r : Nat → Nat}
    (hr : ∀ᶠ m in atTop, rounds + 1 ≤ r m) (h : x.SimulatedBy L fun m => F m (r m - 1 + 1)) :
    x.SimulatedBy L fun m => F m (r m) := by
  apply h.congr
  filter_upwards [hr] with m hm
  rw [Nat.sub_add_cancel (Nat.le_of_add_left_le hm)]

theorem eventually_le_pred {rounds : Nat} {r : Nat → Nat}
    (hr : ∀ᶠ m in atTop, rounds + 1 ≤ r m) : ∀ᶠ m in atTop, rounds ≤ r m - 1 :=
  hr.mono fun _ => Nat.le_sub_of_add_le

/-- A run with events logged before it, and others after it by the value it returns. -/
def framed (opening : List Event) (x : Run α) (closing : α → List Event) : Run α := do
  emit opening
  let a ← x
  emit (closing a)
  pure a

theorem framed_nil (x : Run α) : framed [] x (fun _ => []) = x := by
  unfold framed
  rw [emit_nil_bind]
  exact bind_pure x

theorem SimulatedBy.framed {opening opening' : List Event} {closing closing' : α → List Event}
    (hx : x.SimulatedBy L X) (ho : L.Holds opening opening')
    (hc : ∀ a, L.Holds (closing a) (closing' a)) :
    (framed opening x closing).SimulatedBy L fun m => Run.framed opening' (X m) closing' :=
  (simulated_emit ho).bind fun _ _ => hx.bind fun a _ =>
    (simulated_emit (hc a)).bind fun _ _ => simulated_pure a

end Run

namespace Parser

open Run

variable {α β : Type} {L : LogRelation} {s : Text}

def SimulatedBy (L : LogRelation) (p : Parser α) (P : Nat → Parser α) : Prop :=
  ∀ s, (p s).SimulatedBy L fun m => P m s

variable {p : Parser α} {P : Nat → Parser α} {q : Parser β} {Q : Nat → Parser β}

theorem simulated_const (o : Text → Outcome α) :
    SimulatedBy L (fun s => pure (o s)) fun _ s => pure (o s) :=
  fun s => Run.simulated_pure (o s)

theorem simulated_bind {f : α → Parser β} {F : Nat → α → Parser β} (hp : SimulatedBy L p P)
    (hf : ∀ value, SimulatedBy L (f value) fun m => F m value) :
    SimulatedBy L (p.bind f) fun m => (P m).bind (F m) := by
  intro s
  apply (hp s).bind
  intro o _
  cases o with
  | success value rest => exact hf value rest
  | failure error => exact Run.simulated_pure _

theorem simulated_map (f : α → β) (hp : SimulatedBy L p P) :
    SimulatedBy L (p.map f) fun m => (P m).map f :=
  simulated_bind hp fun _ => simulated_const _

theorem simulated_peek (hp : SimulatedBy L p P) : SimulatedBy L p.peek fun m => (P m).peek := by
  intro s
  apply (hp s).bind
  intro o _
  cases o <;> exact Run.simulated_pure _

theorem simulated_optional (hp : SimulatedBy L p P) :
    SimulatedBy L p.optional fun m => (P m).optional := by
  intro s
  apply (hp s).bind
  intro o _
  cases o <;> exact Run.simulated_pure _

theorem simulated_orElse_cons {second : Parser α} {others : List (Parser α)}
    {Second : Nat → Parser α} {Others : Nat → List (Parser α)} (hp : SimulatedBy L p P)
    (ho : SimulatedBy L (second.orElse others) fun m => (Second m).orElse (Others m)) :
    SimulatedBy L (p.orElse (second :: others)) fun m => (P m).orElse (Second m :: Others m) := by
  intro s
  apply (hp s).bind
  intro o _
  cases o with
  | success value rest => exact Run.simulated_pure _
  | failure error => exact ho s

theorem simulated_leastConsuming_cons {others : List (Parser α)}
    {Others : Nat → List (Parser α)} (hp : SimulatedBy L p P)
    (ho : (leastConsuming others s).SimulatedBy L fun m => leastConsuming (Others m) s) :
    (leastConsuming (p :: others) s).SimulatedBy L fun m => leastConsuming (P m :: Others m) s :=
  (hp s).bind fun _ _ => ho.bind fun _ _ => Run.simulated_pure _

theorem simulated_nearest {alternatives : List (Parser α)} {Alternatives : Nat → List (Parser α)}
    (hlength : ∀ m, (Alternatives m).length = alternatives.length)
    (h : ∀ s, (leastConsuming alternatives s).SimulatedBy L fun m =>
      leastConsuming (Alternatives m) s) :
    SimulatedBy L (nearest alternatives) fun m => nearest (Alternatives m) := by
  intro s
  simp only [nearest, hlength]
  apply (h s).bind
  intro best _
  cases best <;> exact Run.simulated_pure _

theorem simulated_pipe_cons {others : List (Parser α)} {Others : Nat → List (Parser α)}
    (hp : SimulatedBy L p P) (ho : SimulatedBy L (pipe others) fun m => pipe (Others m)) :
    SimulatedBy L (pipe (p :: others)) fun m => pipe (P m :: Others m) :=
  simulated_bind hp fun _ => simulated_map _ ho

theorem simulated_seq_cons {others : List (Parser α)} {Others : Nat → List (Parser α)}
    (hp : SimulatedBy L p P) (ho : SimulatedBy L (seq others) fun m => seq (Others m)) :
    SimulatedBy L (seq (p :: others)) fun m => seq (P m :: Others m) :=
  simulated_bind ho fun _ => simulated_map _ hp

theorem simulated_collected {x : Run (Outcome β)} {X : Nat → Run (Outcome β)} {γ : Type}
    (f : Outcome β → Outcome γ) (h : x.SimulatedBy L X) :
    (do return f (← x)).SimulatedBy L fun m => do return f (← X m) :=
  h.bind fun _ _ => Run.simulated_pure _

theorem simulated_repeatWithin (hp : SimulatedBy L p P) (least most : Nat) :
    SimulatedBy L (p.repeatWithin least most) fun m => (P m).repeatWithin least most := by
  induction most generalizing least with
  | zero =>
    intro s
    simp only [repeatWithin_zero]
    exact Run.simulated_pure _
  | succ most ih =>
    intro s
    simp only [repeatWithin_succ]
    apply (hp s).bind
    intro o _
    cases o with
    | success value rest => exact simulated_collected _ (ih (least - 1) rest)
    | failure error =>
      dsimp only
      split <;> exact Run.simulated_pure _

theorem simulated_repeated (bounds : Bounds) (hp : SimulatedBy L p P) :
    SimulatedBy L (p.repeated bounds) fun m => (P m).repeated bounds := by
  intro s
  unfold repeated
  split
  · exact simulated_repeatWithin hp bounds.least bounds.most s
  · exact Run.simulated_fault _

theorem simulated_manyUntil (hp : SimulatedBy L p P) (hq : SimulatedBy L q Q) {rounds : Nat}
    {r : Nat → Nat} (hr : ∀ᶠ m in atTop, rounds ≤ r m) :
    SimulatedBy L (p.manyUntil q rounds) fun m => (P m).manyUntil (Q m) (r m) := by
  induction rounds generalizing r with
  | zero => exact fun s => Run.simulated_of_unfinished rfl
  | succ rounds ih =>
    intro s
    apply Run.SimulatedBy.of_succ (F := fun m k => (P m).manyUntil (Q m) k s) hr
    simp only [manyUntil_succ]
    apply (hq s).bind
    intro stopped _
    cases stopped with
    | success _ _ => exact Run.simulated_pure _
    | failure _ =>
      apply (hp s).bind
      intro o _
      cases o with
      | success value rest => exact simulated_collected _ (ih (eventually_le_pred hr) rest)
      | failure _ => exact Run.simulated_pure _

theorem simulated_afterSeparators (hp : SimulatedBy L p P) (hq : SimulatedBy L q Q) {rounds : Nat}
    {r : Nat → Nat} (hr : ∀ᶠ m in atTop, rounds ≤ r m) :
    SimulatedBy L (p.afterSeparators q rounds) fun m => (P m).afterSeparators (Q m) (r m) := by
  induction rounds generalizing r with
  | zero => exact fun s => Run.simulated_of_unfinished rfl
  | succ rounds ih =>
    intro s
    apply Run.SimulatedBy.of_succ (F := fun m k => (P m).afterSeparators (Q m) k s) hr
    simp only [afterSeparators_succ]
    apply (hq s).bind
    intro separated _
    cases separated with
    | failure _ => exact Run.simulated_pure _
    | success _ between =>
      apply (hp between).bind
      intro o _
      cases o with
      | success value rest => exact simulated_collected _ (ih (eventually_le_pred hr) rest)
      | failure _ => exact Run.simulated_pure _

theorem simulated_sepBy (hp : SimulatedBy L p P) (hq : SimulatedBy L q Q) {rounds : Nat}
    {r : Nat → Nat} (hr : ∀ᶠ m in atTop, rounds ≤ r m) :
    SimulatedBy L (p.sepBy q rounds) fun m => (P m).sepBy (Q m) (r m) := by
  intro s
  apply (hp s).bind
  intro o _
  cases o with
  | success value rest =>
    exact simulated_collected _ (simulated_afterSeparators hp hq hr rest)
  | failure _ => exact Run.simulated_pure _

theorem simulated_before (hp : SimulatedBy L p P) (hq : SimulatedBy L q Q) :
    SimulatedBy L (p.before q) fun m => (P m).before (Q m) := by
  intro s
  apply (hq s).bind
  intro marked _
  cases marked with
  | failure error => exact Run.simulated_pure _
  | success _ after =>
    have hspan : (span s after).SimulatedBy L fun _ => span s after := by
      unfold span
      dsimp only
      split
      · exact Run.simulated_fault _
      · split
        · exact Run.simulated_pure _
        · exact Run.simulated_fault _
    exact hspan.bind fun part _ => hp part

theorem simulated_fieldsInto_keep {fs : List (Field (Parser α) (Parser Unit))}
    {Fs : Nat → List (Field (Parser α) (Parser Unit))} (key : Text) (record : Record α)
    (hp : SimulatedBy L p P)
    (hfs : ∀ record, SimulatedBy L (fieldsInto record fs) fun m => fieldsInto record (Fs m)) :
    SimulatedBy L (fieldsInto record (.keep key p :: fs)) fun m =>
      fieldsInto record (.keep key (P m) :: Fs m) :=
  simulated_bind hp fun _ => hfs _

theorem simulated_fieldsInto_skip {fs : List (Field (Parser α) (Parser Unit))}
    {Fs : Nat → List (Field (Parser α) (Parser Unit))} (record : Record α)
    {p : Parser Unit} {P : Nat → Parser Unit} (hp : SimulatedBy L p P)
    (hfs : SimulatedBy L (fieldsInto record fs) fun m => fieldsInto record (Fs m)) :
    SimulatedBy L (fieldsInto record (.skip p :: fs)) fun m =>
      fieldsInto record (.skip (P m) :: Fs m) :=
  simulated_bind hp fun _ => hfs

def closing (label : String) (input : Text) : Outcome α → Event
  | .success _ rest =>
    .consumed label (Text.bytes input - Text.bytes rest) (Text.preview rest)
  | .failure error => .failed label error

/-- A traced parser does nothing but log, if what is left is never longer than the input. -/
theorem trace_eq_framed (label : String)
    (h : ∀ value rest, (p s).ending = .returns (.success value rest) →
      Text.bytes rest ≤ Text.bytes s) :
    p.trace label s =
      framed [.entered label (Text.preview s)] (p s) fun o => [closing label s o] := by
  unfold trace framed
  congr 1
  funext _
  cases hx : (p s).ending with
  | returns o =>
    rw [bind_eq_of_returns _ hx, bind_eq_of_returns _ hx]
    cases o with
    | success value rest =>
      simp only [noteOutcome]
      rw [if_neg (Nat.not_lt.2 (h value rest hx))]
      rfl
    | failure error => rfl
  | faults fault => rw [bind_eq_of_faults _ hx, bind_eq_of_faults _ hx]
  | unfinished => rw [bind_eq_of_unfinished _ hx, bind_eq_of_unfinished _ hx]

end Parser

/-- Both steps are done alike, or what the one asks for is simulated. -/
inductive Step.SimulatedBy {ν ω : Type} (L : LogRelation) :
    Step (Parser ν) ω → (Nat → Step (Parser ν) ω) → Prop
  | yield {p : Parser ν} {P : Nat → Parser ν} : Parser.SimulatedBy L p P →
    SimulatedBy L (.yield p) fun m => .yield (P m)
  | done (output : ω) : SimulatedBy L (.done output) fun _ => .done output

namespace Procedure

variable {σ ν ω : Type} {L : LogRelation}

/-- The procedure logs events that have no name, and goes on to a state and a step. -/
def ResumesWith (procedure : Procedure σ ν ω) (state : σ) (value : Option ν)
    (events : List Event) (next : σ) (step : Step (Parser ν) ω) : Prop :=
  procedure.resume state value = do
    Run.emit events
    return (next, step)

theorem simulated_countUp (steps : Nat) :
    (countUp steps).SimulatedBy L fun _ => countUp steps := by
  unfold countUp
  split
  · exact Run.simulated_pure _
  · exact Run.simulated_fault _

theorem simulated_proceed {procedure : Procedure σ ν ω} {Simulating : Nat → Procedure σ ν ω}
    (h : ∀ state value, ∃ events next step, ∃ Step : Nat → Step (Parser ν) ω,
      L.Holds events events ∧ procedure.ResumesWith state value events next step ∧
      (∀ m, (Simulating m).ResumesWith state value events next (Step m)) ∧
      step.SimulatedBy L Step) {rounds : Nat} {r : Nat → Nat} (hr : ∀ᶠ m in atTop, rounds ≤ r m)
    (steps : Nat) (state : σ) (value : Option ν) :
    Parser.SimulatedBy L (procedure.proceed rounds steps state value) fun m =>
      (Simulating m).proceed (r m) steps state value := by
  induction rounds generalizing steps state value r with
  | zero => exact fun s => Run.simulated_of_unfinished rfl
  | succ rounds ih =>
    intro s
    obtain ⟨events, next, step, Step, hevents, hx, hX, hstep⟩ := h state value
    apply Run.SimulatedBy.of_succ (F := fun m k => (Simulating m).proceed k steps state value s) hr
    simp only [proceed_succ]
    unfold ResumesWith at hx hX
    simp only [hx, hX, bind_assoc, LawfulMonad.pure_bind]
    apply (Run.simulated_emit hevents).bind
    intro _ _
    cases hstep with
    | done output => exact Run.simulated_pure _
    | yield hp =>
      apply (hp s).bind
      intro o _
      cases o with
      | success value rest =>
        apply (simulated_countUp steps).bind
        intro steps _
        exact ih (Run.eventually_le_pred hr) steps next (some value) rest
      | failure error => exact (Run.simulated_note rfl).bind fun _ _ => Run.simulated_pure _

end Procedure

end TextGrammar
