import TextGrammar.Proofs.OffsetScanners
import TextGrammar.Proofs.Rounds

/-!
# Scanners that take many characters at once

A scanner that takes a number of characters, skips blanks or takes all of the text does in one step
what a repetition of a scanner for single characters does in rounds, one for each character. The
one step is a cut at a byte offset, and the rounds go from one character to the next.
-/

namespace TextGrammar.Parser

open Text

variable {α : Type} {accept : Char → Bool} {refusal : Option Char → ParseError}

theorem roundsLog_ofScanner (scanner : Scanner α) (rounds : List (Text × α)) :
    (ofScanner scanner).roundsLog rounds = [] :=
  List.flatMap_eq_nil_iff.2 fun _ _ => rfl

/-! ## Characters that are accepted -/

theorem exists_rounds_char (refusal : Option Char → ParseError) {pre : Text}
    (hpre : ∀ c ∈ pre, accept c) (t : Text) :
    ∃ rounds, Rounds (ofScanner (.char accept refusal)) (pre ++ t) rounds t ∧
      rounds.map Prod.snd = pre := by
  induction pre with
  | nil => exact ⟨[], .nil, rfl⟩
  | cons c pre ih =>
    obtain ⟨hc, hothers⟩ := List.forall_mem_cons.1 hpre
    obtain ⟨rounds, hrounds, hvalues⟩ := ih hothers
    have hfirst : (ofScanner (.char accept refusal) (c :: (pre ++ t))).ending =
        .returns (.success c (pre ++ t)) := by
      change Ending.returns (if accept c then _ else _) = _
      rw [if_pos hc]
    exact ⟨_, .cons hfirst hrounds, by rw [List.map_cons, hvalues]⟩

theorem ending_char_dropWhile (accept : Char → Bool) (refusal : Option Char → ParseError)
    (s : Text) : (ofScanner (.char accept refusal) (s.dropWhile accept)).ending =
      .returns (.failure (refusal (s.dropWhile accept).head?)) := by
  induction s with
  | nil => rfl
  | cons c s ih =>
    by_cases hc : accept c
    · rwa [List.dropWhile_cons_of_pos hc]
    · rw [List.dropWhile_cons_of_neg hc]
      change Ending.returns (if accept c then _ else _) = _
      rw [if_neg hc]
      rfl

theorem repeated_char_of_length_eq {pre : Text} {bounds : Bounds}
    (hb : bounds.least ≤ bounds.most) (hpre : ∀ c ∈ pre, accept c)
    (hlength : pre.length = bounds.most) (t : Text) :
    (ofScanner (.char accept refusal)).repeated bounds (pre ++ t) = pure (.success pre t) := by
  obtain ⟨rounds, hrounds, hvalues⟩ := exists_rounds_char refusal hpre t
  have hmost : rounds.length = bounds.most := by
    rw [← hlength, ← hvalues, List.length_map]
  rw [repeated_of_le hb, repeatWithin_of_length_eq hrounds hmost, roundsLog_ofScanner, hvalues]
  rfl

theorem repeated_char_of_length_lt {bounds : Bounds} (hb : bounds.least ≤ bounds.most)
    {input : Text} (hlength : (input.takeWhile accept).length < bounds.most) :
    (ofScanner (.char accept refusal)).repeated bounds input =
      pure (if bounds.least ≤ (input.takeWhile accept).length then
        .success (input.takeWhile accept) (input.dropWhile accept)
      else .failure (refusal (input.dropWhile accept).head?)) := by
  have hpre : ∀ c ∈ input.takeWhile accept, accept c := fun _ => List.mem_takeWhile_imp
  obtain ⟨rounds, hrounds, hvalues⟩ := exists_rounds_char refusal hpre (input.dropWhile accept)
  rw [List.takeWhile_append_dropWhile] at hrounds
  rw [← hvalues, List.length_map] at hlength ⊢
  rw [repeated_of_le hb, repeatWithin_of_failure hrounds hlength (ending_char_dropWhile _ _ _),
    roundsLog_ofScanner]
  rfl

theorem many_char {input : Text} (h : input.length < wordLimit - 1) :
    (ofScanner (.char accept refusal)).many input =
      pure (.success (input.takeWhile accept) (input.dropWhile accept)) := by
  have hlength : (input.takeWhile accept).length < Bounds.any.most :=
    Nat.lt_of_le_of_lt (List.takeWhile_prefix accept).length_le h
  exact (repeated_char_of_length_lt (Nat.zero_le _) hlength).trans
    (congrArg pure (if_pos (Nat.zero_le _)))

/-! ## Numbers of characters -/

theorem scan_take_of_le {n : Nat} {input : Text} (h : n ≤ input.length) :
    (Scanner.take n).scan input = .success (input.take n) (input.drop n) := by
  simp only [Scanner.take, splitChars?, if_pos h]

theorem scan_take_of_lt {n : Nat} {input : Text} (h : input.length < n) :
    (Scanner.take n).scan input = .failure (.tooShort n input.length) := by
  simp only [Scanner.take, splitChars?, if_neg (Nat.not_le.2 h)]

theorem scan_take_eq_success_iff {n : Nat} {input taken rest : Text} :
    (Scanner.take n).scan input = .success taken rest ↔
      input = taken ++ rest ∧ taken.length = n := by
  constructor
  · intro h
    rcases Nat.lt_or_ge input.length n with hlt | hle
    · rw [scan_take_of_lt hlt] at h
      cases h
    · rw [scan_take_of_le hle] at h
      obtain ⟨rfl, rfl⟩ := Outcome.success.inj h
      exact ⟨(List.take_append_drop n input).symm, List.length_take_of_le hle⟩
  · rintro ⟨rfl, rfl⟩
    rw [scan_take_of_le (List.prefix_append taken rest).length_le, List.take_left, List.drop_left]

/-- Both find the same and leave the same, or both fail because the text has ended. -/
def AgreesWith (p q : Parser α) (s : Text) : Prop :=
  (∃ value t, p s = pure (.success value t) ∧ q s = pure (.success value t)) ∨
    ∃ error error', p s = pure (.failure error) ∧ q s = pure (.failure error') ∧
      error.kind = .endOfInput ∧ error'.kind = .endOfInput

theorem take_agreesWith_repeated (n : Nat) (input : Text) :
    (ofScanner (.take n)).AgreesWith ((ofScanner .anyChar).repeated (.between n n)) input := by
  have hbounds : Bounds.least (.between n n) ≤ Bounds.most (.between n n) := Nat.le_refl n
  rcases Nat.lt_or_ge input.length n with hlt | hle
  · have hall : input.takeWhile (fun _ => true) = input :=
      List.takeWhile_eq_self_iff.2 fun _ _ => rfl
    have hlength : (input.takeWhile fun _ => true).length < Bounds.most (.between n n) := by
      rwa [hall]
    refine Or.inr ⟨_, .noCharacter, congrArg pure (scan_take_of_lt hlt), ?_, rfl, rfl⟩
    refine (repeated_char_of_length_lt hbounds hlength).trans (congrArg pure (if_neg ?_))
    rw [hall]
    exact Nat.not_le.2 hlt
  · refine Or.inl ⟨_, _, congrArg pure (scan_take_of_le hle), ?_⟩
    have hrepeated : (ofScanner .anyChar).repeated (.between n n)
        (input.take n ++ input.drop n) = pure (.success (input.take n) (input.drop n)) :=
      repeated_char_of_length_eq hbounds (fun _ _ => rfl) (List.length_take_of_le hle) _
    rwa [List.take_append_drop] at hrepeated

def takeInTwo (m n : Nat) : Parser Text :=
  (ofScanner (.take m)).bind fun first => (ofScanner (.take n)).map (first ++ ·)

theorem takeInTwo_agreesWith_take (m n : Nat) (input : Text) :
    (takeInTwo m n).AgreesWith (ofScanner (.take (m + n))) input := by
  rcases Nat.lt_or_ge input.length m with hm | hm
  · have hfirst : takeInTwo m n input = pure (.failure (.tooShort m input.length)) := by
      change pure ((Scanner.take m).scan input) >>= _ = _
      rw [scan_take_of_lt hm]
      rfl
    exact Or.inr ⟨_, _, hfirst, congrArg pure (scan_take_of_lt (by omega)), rfl, rfl⟩
  have hsecond : takeInTwo m n input =
      pure (((Scanner.take n).scan (input.drop m)).map (input.take m ++ ·)) := by
    change pure ((Scanner.take m).scan input) >>= _ = _
    rw [scan_take_of_le hm]
    exact congrFun (map_ofScanner (input.take m ++ ·) (.take n)) (input.drop m)
  have hlength : (input.drop m).length = input.length - m := List.length_drop
  rcases Nat.lt_or_ge (input.drop m).length n with hn | hn
  · rw [scan_take_of_lt hn] at hsecond
    exact Or.inr ⟨_, _, hsecond, congrArg pure (scan_take_of_lt (by omega)), rfl, rfl⟩
  · rw [scan_take_of_le hn, Outcome.map_success, ← List.take_add, List.drop_drop] at hsecond
    exact Or.inl ⟨_, _, hsecond, congrArg pure (scan_take_of_le (by omega))⟩

/-! ## Blanks, and all of the text -/

theorem many_whitespaceChar_ignore {input : Text} (h : input.length < wordLimit - 1) :
    (ofScanner .whitespaceChar).many.ignore input = ofScanner .whitespace input := by
  change (ofScanner .whitespaceChar).many input >>= _ = _
  rw [Scanner.whitespaceChar, many_char h]
  rfl

theorem many_anyChar {input : Text} (h : input.length < wordLimit - 1) :
    (ofScanner .anyChar).many input = ofScanner .breakToEnd input := by
  rw [Scanner.anyChar, many_char h, List.takeWhile_eq_self_iff.2 fun _ _ => rfl,
    List.dropWhile_eq_nil_iff.2 fun _ _ => rfl]
  rfl

/-- Exactly as many characters as are asked for are taken, at once, by a repetition of that many
characters, and also in two parts: all find the same and leave the same, or all fail because the
text has ended. Up to the largest number that a repetition counts, to skip blanks, which always
succeeds, is to repeat a blank character, and to take all of the text is to repeat any character, so
that nothing is left. The scanners that do this with cuts at byte offsets are the same parsers. -/
theorem bulk_scanners_agree_with_repetitions (input : Text) :
    (∀ n taken rest, (Scanner.take n).scan input = .success taken rest ↔
      input = taken ++ rest ∧ taken.length = n) ∧
    (∀ n, (ofScanner (.take n)).AgreesWith ((ofScanner .anyChar).repeated (.between n n)) input) ∧
    (∀ m n, (takeInTwo m n).AgreesWith (ofScanner (.take (m + n))) input) ∧
    (input.length < wordLimit - 1 →
      (∃ t, ofScanner .whitespace input = pure (.success () t)) ∧
      (ofScanner .whitespaceChar).many.ignore input = ofScanner .whitespace input ∧
      ofScanner .breakToEnd input = pure (.success input []) ∧
      (ofScanner .anyChar).many input = ofScanner .breakToEnd input) ∧
    (∀ n, takeByOffset n = ofScanner (.take n)) ∧
    whitespaceByOffset = ofScanner .whitespace ∧ breakToEndByOffset = ofScanner .breakToEnd := by
  refine ⟨fun _ _ _ => scan_take_eq_success_iff, fun n => take_agreesWith_repeated n input,
    fun m n => takeInTwo_agreesWith_take m n input, ?_, takeByOffset_eq, whitespaceByOffset_eq,
    breakToEndByOffset_eq⟩
  intro h
  exact ⟨⟨_, rfl⟩, many_whitespaceChar_ignore h, rfl, many_anyChar h⟩

/-- Two of three characters, and the blanks before another character. -/
theorem bulk_scanners_agree_with_repetitions_blanks :
    (ofScanner (.take 2)).AgreesWith ((ofScanner .anyChar).repeated (.between 2 2))
      [' ', '\t', 'é'] ∧
    [' ', '\t', 'é'].length < wordLimit - 1 ∧
    (ofScanner .whitespaceChar).many.ignore [' ', '\t', 'é'] = pure (.success () ['é']) := by
  have h := bulk_scanners_agree_with_repetitions [' ', '\t', 'é']
  have hlength : [' ', '\t', 'é'].length < wordLimit - 1 := by decide
  exact ⟨h.2.1 2, hlength, (h.2.2.2.1 hlength).2.1⟩

end TextGrammar.Parser
