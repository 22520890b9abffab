import TextGrammar.Proofs.Cuts

/-!
# Cuts at the offsets of characters

A place in a text can be given as a byte offset: where an accepted character begins, or an
occurrence of another text, or the end. Such an offset is the byte length of what precedes it, so a
cut there never falls inside a character.
-/

namespace TextGrammar

namespace Text

def cut (offset : Nat) (s : Text) : Run (Text × Text) :=
  match takeBytes? offset s with
  | some head => pure (head, s.drop head.length)
  | none => Run.fault .splitCharacter

theorem cut_append (s t : Text) : cut (bytes s) (s ++ t) = pure (s, t) := by
  unfold cut
  rw [takeBytes?_bytes_append]
  dsimp only
  rw [List.drop_left]

theorem cut_bytes (s : Text) : cut (bytes s) s = pure (s, []) := by
  have h := cut_append s []
  rwa [List.append_nil] at h

/-- The byte offsets at which the accepted characters begin, in order. -/
def offsets (accept : Char → Bool) : Text → List Nat
  | [] => []
  | c :: s =>
    let later := (offsets accept s).map (c.utf8Size + ·)
    if accept c then 0 :: later else later

theorem offsets_getElem?_cases (accept : Char → Bool) (s : Text) (k : Nat) :
    (∃ pre c post, s = pre ++ c :: post ∧ accept c ∧ pre.countP accept = k ∧
      (offsets accept s)[k]? = some (bytes pre)) ∨
    s.countP accept ≤ k ∧ (offsets accept s)[k]? = none := by
  induction s generalizing k with
  | nil => exact Or.inr ⟨Nat.zero_le k, rfl⟩
  | cons c s ih =>
    by_cases hc : accept c
    · rw [offsets, if_pos hc, List.countP_cons_of_pos hc]
      cases k with
      | zero => exact Or.inl ⟨[], c, s, rfl, hc, rfl, rfl⟩
      | succ k =>
        rw [List.getElem?_cons_succ, List.getElem?_map]
        rcases ih k with ⟨pre, d, post, rfl, hd, hk, hget⟩ | ⟨hk, hget⟩
        · left
          refine ⟨c :: pre, d, post, rfl, hd, ?_, ?_⟩
          · rw [List.countP_cons_of_pos hc, hk]
          · rw [hget]
            rfl
        · right
          rw [hget]
          exact ⟨by omega, rfl⟩
    · rw [offsets, if_neg hc, List.countP_cons_of_neg hc, List.getElem?_map]
      rcases ih k with ⟨pre, d, post, rfl, hd, hk, hget⟩ | ⟨hk, hget⟩
      · left
        refine ⟨c :: pre, d, post, rfl, hd, ?_, ?_⟩
        · rw [List.countP_cons_of_neg hc, hk]
        · rw [hget]
          rfl
      · right
        rw [hget]
        exact ⟨hk, rfl⟩

/-- The first `n` characters and what follows them: the cut is where the next character begins, or
at the end. -/
def splitCharsByOffset (n : Nat) (s : Text) : Run (Option (Text × Text)) :=
  match (offsets (fun _ => true) s ++ [bytes s])[n]? with
  | some offset => return some (← cut offset s)
  | none => pure none

theorem length_offsets_all (s : Text) : (offsets (fun _ => true) s).length = s.length := by
  induction s with
  | nil => rfl
  | cons c s ih => rw [offsets, if_pos rfl, List.length_cons, List.length_map, ih, List.length_cons]

theorem splitCharsByOffset_eq (n : Nat) (s : Text) :
    splitCharsByOffset n s = pure (splitChars? n s) := by
  have hlen := length_offsets_all s
  unfold splitCharsByOffset splitChars?
  rcases Nat.lt_trichotomy n s.length with hlt | rfl | hgt
  · rw [List.getElem?_append_left (by omega), if_pos (Nat.le_of_lt hlt)]
    rcases offsets_getElem?_cases (fun _ => true) s n with
      ⟨pre, c, post, rfl, _, hk, hget⟩ | ⟨hk, _⟩
    · rw [List.countP_true] at hk
      rw [hget]
      dsimp only
      rw [cut_append, ← hk, List.take_left, List.drop_left]
      rfl
    · rw [List.countP_true] at hk
      omega
  · rw [List.getElem?_append_right (Nat.le_of_eq hlen), hlen, Nat.sub_self, if_pos (Nat.le_refl _),
      List.take_length, List.drop_length]
    change (do return some (← cut (bytes s) s)) = _
    rw [cut_bytes]
    rfl
  · rw [if_neg (by omega), List.getElem?_eq_none]
    rw [List.length_append, hlen]
    exact hgt

def offsetOf? (needle : Text) : Text → Option Nat
  | [] => if needle = [] then some 0 else none
  | c :: s =>
    if (dropStart? needle (c :: s)).isSome then some 0
    else (offsetOf? needle s).map (c.utf8Size + ·)

theorem offsetOf?_eq (needle s : Text) :
    offsetOf? needle s = (splitAtFirst? needle s).map fun (before, _) => bytes before := by
  induction s with
  | nil =>
    rw [offsetOf?, splitAtFirst?]
    split <;> rfl
  | cons c s ih =>
    rw [offsetOf?, splitAtFirst?]
    cases hd : dropStart? needle (c :: s) with
    | some after => rfl
    | none =>
      rw [if_neg (by simp), ih, Option.map_map, Option.map_map]
      rfl

end Text

end TextGrammar
