import Mathlib.Data.List.Infix
import TextGrammar.Proofs.Cuts

/-!
# Occurrences of a text in another

A search splits a text at an occurrence before which there is none, if there is any. Of two
occurrences in one text, one that begins no earlier than the other and ends no later is an
occurrence in the other.
-/

namespace TextGrammar.Text

theorem bytes_le_iff_of_suffix {s t u : Text} (hs : s <:+ u) (ht : t <:+ u) :
    bytes s ≤ bytes t ↔ s.length ≤ t.length := by
  constructor
  · intro hle
    by_contra hlt
    obtain ⟨pre, rfl⟩ := List.suffix_of_suffix_length_le ht hs (by omega)
    rw [bytes_append] at hle
    have hpre : bytes pre = bytes [] := by
      rw [bytes_nil]
      omega
    have hnil : pre = [] := eq_of_prefix_of_bytes_eq (List.prefix_refl pre) List.nil_prefix hpre
    rw [hnil] at hlt
    exact hlt (Nat.le_refl _)
  · intro hle
    exact bytes_le_of_infix (List.suffix_of_suffix_length_le hs ht hle).isInfix

theorem exists_of_nested_occurrences {s t a b before after input : Text}
    (ht : input = a ++ t ++ b) (hs : input = before ++ s ++ after)
    (hbegin : a.length ≤ before.length)
    (hend : (before ++ s).length ≤ (a ++ t).length) :
    ∃ left right, before = a ++ left ∧ t = left ++ s ++ right ∧ after = right ++ b := by
  subst ht
  have hprefix : before ++ s <+: a ++ t := by
    apply List.prefix_of_prefix_length_le _ (List.prefix_append (a ++ t) b) hend
    rw [hs]
    exact List.prefix_append _ _
  obtain ⟨right, hright⟩ := hprefix
  have hbefore : a <+: before := by
    apply List.prefix_of_prefix_length_le (List.prefix_append a t) _ hbegin
    rw [← hright, List.append_assoc]
    exact List.prefix_append _ _
  obtain ⟨left, rfl⟩ := hbefore
  refine ⟨left, right, rfl, ?_, ?_⟩
  · simpa using hright.symm
  · rw [← hright, List.append_assoc] at hs
    exact (List.append_cancel_left hs).symm

theorem length_le_of_splitAtFirst? {needle s before after : Text}
    (h : splitAtFirst? needle s = some (before, after)) {b a : Text} (hs : s = b ++ needle ++ a) :
    before.length ≤ b.length := by
  induction s generalizing before b with
  | nil =>
    have hlength := congrArg List.length (splitAtFirst?_eq_some h)
    simp only [List.length_nil, List.length_append] at hlength
    omega
  | cons c s ih =>
    rw [splitAtFirst?] at h
    split at h
    · obtain ⟨rfl, rfl⟩ := Prod.mk.inj (Option.some.inj h)
      exact Nat.zero_le _
    · next hnone =>
      obtain ⟨⟨before', after'⟩, hfirst, heq⟩ := Option.map_eq_some_iff.1 h
      obtain ⟨rfl, rfl⟩ := Prod.mk.inj heq
      cases b with
      | nil =>
        rw [List.nil_append, ← dropStart?_eq_some_iff, hnone] at hs
        cases hs
      | cons d b =>
        rw [List.cons_append, List.cons_append] at hs
        obtain ⟨rfl, htail⟩ := List.cons.inj hs
        exact Nat.succ_le_succ (ih hfirst htail)

theorem exists_splitAtFirst? {needle s : Text} (h : needle <:+: s) :
    ∃ before after, splitAtFirst? needle s = some (before, after) := by
  induction s with
  | nil =>
    obtain rfl := List.infix_nil.1 h
    exact ⟨[], [], rfl⟩
  | cons c s ih =>
    rw [splitAtFirst?]
    cases hd : dropStart? needle (c :: s) with
    | some after => exact ⟨[], after, rfl⟩
    | none =>
      have hs : needle <:+: s := by
        rcases List.infix_cons_iff.1 h with ⟨after, hprefix⟩ | hs
        · rw [dropStart?_eq_some_iff.2 hprefix.symm] at hd
          cases hd
        · exact hs
      obtain ⟨before, after, hfirst⟩ := ih hs
      exact ⟨c :: before, after, by rw [hfirst]; rfl⟩

theorem splitAtFirst?_eq_none_iff {needle s : Text} :
    splitAtFirst? needle s = none ↔ ¬ needle <:+: s := by
  constructor
  · intro h hs
    obtain ⟨before, after, hfirst⟩ := exists_splitAtFirst? hs
    cases h.symm.trans hfirst
  · intro h
    by_contra hsome
    obtain ⟨⟨before, after⟩, hfirst⟩ := Option.ne_none_iff_exists'.1 hsome
    exact h ⟨before, after, (splitAtFirst?_eq_some hfirst).symm⟩

theorem splitAtFirst?_eq_some_iff {needle s before after : Text} :
    splitAtFirst? needle s = some (before, after) ↔ s = before ++ needle ++ after ∧
      ∀ b a, s = b ++ needle ++ a → before.length ≤ b.length := by
  constructor
  · intro h
    exact ⟨splitAtFirst?_eq_some h, fun _ _ => length_le_of_splitAtFirst? h⟩
  · rintro ⟨hs, hfirst⟩
    obtain ⟨b, a, h⟩ := exists_splitAtFirst? ⟨before, after, hs.symm⟩
    have hsplit := splitAtFirst?_eq_some h
    have hlength : before.length = b.length :=
      Nat.le_antisymm (hfirst b a hsplit) (length_le_of_splitAtFirst? h hs)
    have heq : before ++ (needle ++ after) = b ++ (needle ++ a) := by
      rw [← List.append_assoc, ← List.append_assoc, ← hs, ← hsplit]
    obtain ⟨rfl, htail⟩ := List.append_inj heq hlength
    rw [h, List.append_cancel_left htail]

end TextGrammar.Text
