import TextGrammar.Outcome
import TextGrammar.Proofs.Ends

/-!
# Contracts of parsers

A contract says what a parser may leave of a text, which errors it may return and which faults may
stop it. What may be left is closed under going on, so what is kept on a remaining text is kept on
the text it remains of.
-/

namespace TextGrammar

structure Contract where
  leaves : Text → Text → Prop
  errs : ParseError → Prop
  faults : Fault → Prop
  leaves_of_suffix : ∀ {s t : Text}, t <:+ s → leaves s t
  leaves_trans : ∀ {s t u : Text}, leaves s t → leaves t u → leaves s u
  bytes_le_of_leaves : ∀ {s t : Text}, leaves s t → Text.bytes t ≤ Text.bytes s

namespace Contract

variable {α β : Type} (c : Contract)

def Allows (s : Text) : Outcome α → Prop
  | .success _ rest => c.leaves s rest
  | .failure error => c.errs error

/-- The run of a parser on `s` ends as the contract says. -/
def Kept (s : Text) (x : Run (Outcome α)) : Prop := x.Ends (c.Allows s) c.faults

variable {c} {s t : Text}

theorem leaves_refl : c.leaves s s := c.leaves_of_suffix (List.suffix_refl s)

theorem kept_success {value : α} (h : c.leaves s t) : c.Kept s (pure (.success value t)) := h

theorem kept_failure {error : ParseError} (h : c.errs error) :
    c.Kept s (pure (.failure error) : Run (Outcome α)) := h

theorem kept_cutOff : c.Kept s (Run.cutOff : Run (Outcome α)) := Run.ends_cutOff _ _

theorem kept_fault {fault : Fault} (h : c.faults fault) :
    c.Kept s (Run.fault fault : Run (Outcome α)) := h

theorem kept_note {e : Event} {x : Run (Outcome α)} (h : c.Kept s x) :
    c.Kept s (Run.note e >>= fun _ => x) := Run.ends_note_bind.2 h

theorem Kept.leaves_of_success {x : Run (Outcome α)} {value : α} (h : c.Kept s x)
    (hx : x.ending = .returns (.success value t)) : c.leaves s t := (Run.ends_iff.1 h).1 _ hx

theorem Kept.mono {x : Run (Outcome α)} (h : c.Kept t x)
    (hst : ∀ u, c.leaves t u → c.leaves s u) : c.Kept s x := by
  apply Run.Ends.mono h
  · intro o _ ho
    cases o with
    | success value rest => exact hst rest ho
    | failure error => exact ho
  · exact fun _ hf => hf

theorem Kept.of_leaves {x : Run (Outcome α)} (h : c.Kept t x) (hst : c.leaves s t) :
    c.Kept s x := h.mono fun _ hu => c.leaves_trans hst hu

theorem Kept.bind {x : Run (Outcome α)} {k : Outcome α → Run (Outcome β)} (h : c.Kept s x)
    (hs : ∀ value t, x.ending = .returns (.success value t) → c.leaves s t →
      c.Kept s (k (.success value t)))
    (hf : ∀ error, x.ending = .returns (.failure error) → c.errs error →
      c.Kept s (k (.failure error))) : c.Kept s (x >>= k) := by
  unfold Kept
  rw [Run.ends_bind]
  apply Run.Ends.mono h
  · intro o hx ho
    cases o with
    | success value t => exact hs value t hx ho
    | failure error => exact hf error hx ho
  · exact fun _ hf => hf

theorem Kept.map {x : Run (Outcome α)} (f : α → β) (h : c.Kept s x) :
    c.Kept s (do return (← x).map f) := by
  apply h.bind
  · intro value t _ ht
    exact kept_success ht
  · intro error _ he
    exact kept_failure he

end Contract

end TextGrammar
