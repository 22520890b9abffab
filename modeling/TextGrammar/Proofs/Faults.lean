import TextGrammar.Proofs.OffsetScanners
import TextGrammar.Proofs.Remaining

/-!
# Grammars that never fault

A grammar stops at a fault only where bounds are in the wrong order or where a bounded parser cuts
at the wrong place. Where no marker applies a bounded parser itself, its remaining text is a suffix
and the cut is right, however the bounded parsers are nested otherwise. That leaves the count of the
interpreter, which can only be outgrown by a block of that many steps or by a procedure on a text
of that many characters, if every value it receives takes some of them.
-/

namespace TextGrammar

/-- Bounds that a repetition accepts. A least number alone has to be a word. -/
def Bounds.InOrder : Bounds → Prop
  | .any | .atMost _ => True
  | .atLeast n => n < Text.wordLimit
  | .between least most => least ≤ most

theorem Bounds.inOrder_iff {bounds : Bounds} : bounds.InOrder ↔ bounds.least ≤ bounds.most := by
  cases bounds with
  | any => simp [InOrder, least]
  | atLeast n =>
    simp only [InOrder, least, most]
    have hpos : 0 < Text.wordLimit := by decide
    omega
  | atMost n => simp [InOrder, least]
  | between n m => rfl

namespace Grammar

open Procedure

variable {rules : Rules}

theorem Leaves.length_lt {g : Grammar} {s t : Text} (h : g.Leaves rules s t) (hne : t ≠ s) :
    t.length < s.length :=
  Nat.lt_of_le_of_ne h.isInfix.length_le fun hlength => hne (h.isInfix.eq_of_length hlength)

theorem Received.length_add_le {asks : List Value → Option Grammar} {received : List Value}
    {s t : Text} (h : Received rules asks s received t)
    (hasks : ∀ received t g u, Received rules asks s received t → asks received = some g →
      g.Leaves rules t u → u ≠ t) : received.length + t.length ≤ s.length := by
  induction h with
  | start => simp
  | @next received t u g value hreceived hg hx _ ih =>
    have hl : g.Leaves rules t u := ⟨value, hx⟩
    have hlt := hl.length_lt (hasks received t g u hreceived hg hl)
    rw [List.length_append, List.length_singleton]
    omega

end Grammar

end TextGrammar
