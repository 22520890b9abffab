import TextGrammar.Parser.Basic

/-!
# Cuts at byte counts

A cut at a byte count succeeds exactly where a prefix of the text has that many bytes. The span of
a bounded parser is such a cut: it is the text before the marker's remaining text if that is a
suffix of the input.
-/

namespace TextGrammar

namespace Text

theorem bytes_le_of_infix {s t : Text} (h : t <:+: s) : bytes t ≤ bytes s := by
  obtain ⟨pre, post, rfl⟩ := h
  rw [bytes_append, bytes_append]
  omega

theorem takeBytes?_zero (s : Text) : takeBytes? 0 s = some [] := by
  cases s <;> rfl

theorem takeBytes?_bytes_append (s t : Text) : takeBytes? (bytes s) (s ++ t) = some s := by
  induction s with
  | nil => exact takeBytes?_zero t
  | cons c s ih =>
    have hc := c.utf8Size_pos
    obtain ⟨n, hn⟩ : ∃ n, bytes (c :: s) = n + 1 := ⟨bytes (c :: s) - 1, by rw [bytes_cons]; omega⟩
    have hle : c.utf8Size ≤ n + 1 := by rw [← hn, bytes_cons]; omega
    have hleft : n + 1 - c.utf8Size = bytes s := by rw [← hn, bytes_cons]; omega
    rw [hn, List.cons_append, takeBytes?, if_pos hle, hleft, ih]
    rfl

theorem takeBytes?_eq_some_iff {n : Nat} {s part : Text} :
    takeBytes? n s = some part ↔ part <+: s ∧ bytes part = n := by
  constructor
  · intro h
    induction s generalizing n part with
    | nil =>
      cases n with
      | zero =>
        obtain rfl : [] = part := Option.some.inj h
        exact ⟨List.nil_prefix, rfl⟩
      | succ n => cases h
    | cons c s ih =>
      cases n with
      | zero =>
        obtain rfl : [] = part := Option.some.inj h
        exact ⟨List.nil_prefix, rfl⟩
      | succ n =>
        rw [takeBytes?] at h
        split at h
        · next hle =>
          obtain ⟨tail, ht, rfl⟩ := Option.map_eq_some_iff.1 h
          obtain ⟨hp, hb⟩ := ih ht
          refine ⟨(List.prefix_cons_inj c).2 hp, ?_⟩
          rw [bytes_cons, hb]
          omega
        · cases h
  · rintro ⟨⟨t, rfl⟩, rfl⟩
    exact takeBytes?_bytes_append part t

theorem eq_of_prefix_of_bytes_eq {s a b : Text} (ha : a <+: s) (hb : b <+: s)
    (h : bytes a = bytes b) : a = b := by
  have hcut := takeBytes?_eq_some_iff.2 ⟨ha, h⟩
  rw [takeBytes?_eq_some_iff.2 ⟨hb, rfl⟩] at hcut
  exact (Option.some.inj hcut).symm

end Text

namespace Parser

open Text

theorem span_eq_pure_iff {input after part : Text} :
    span input after = pure part ↔ part <+: input ∧ bytes part + bytes after = bytes input := by
  unfold span
  dsimp only
  split
  · next hlt =>
    constructor
    · intro h
      cases h
    · rintro ⟨-, hb⟩
      omega
  · next hle =>
    constructor
    · intro h
      split at h
      · next cut hcut =>
        obtain ⟨hp, hb⟩ := takeBytes?_eq_some_iff.1 hcut
        cases h
        exact ⟨hp, by omega⟩
      · cases h
    · rintro ⟨hp, hb⟩
      have hcut : takeBytes? (bytes input - bytes after) input = some part :=
        takeBytes?_eq_some_iff.2 ⟨hp, by omega⟩
      rw [hcut]

theorem span_append (part after : Text) : span (part ++ after) after = pure part :=
  span_eq_pure_iff.2 ⟨List.prefix_append part after, (bytes_append part after).symm⟩

theorem span_eq_pure_of_ending {input after part : Text}
    (h : (span input after).ending = .returns part) : span input after = pure part := by
  unfold span at h ⊢
  dsimp only at h ⊢
  split at h
  · cases h
  · next hle =>
    rw [if_neg hle]
    split at h
    · cases h
      rfl
    · cases h

/-- A span is cut, or the cut falls inside a character, unless more is left than there was. -/
theorem span_cases {input after : Text} (h : bytes after ≤ bytes input) :
    (∃ part, span input after = pure part) ∨ span input after = Run.fault .splitCharacter := by
  unfold span
  dsimp only
  rw [if_neg (Nat.not_lt.2 h)]
  split
  · exact Or.inl ⟨_, rfl⟩
  · exact Or.inr rfl

end Parser

end TextGrammar
