import TextGrammar.Proofs.BulkScanners
import TextGrammar.Proofs.Finds
import TextGrammar.Proofs.NestedBinds
import TextGrammar.Proofs.Numerals
import TextGrammar.Proofs.Occurrences

/-!
# Length-prefixed texts are read back

What announces the length of a text has no colon in it, so a search for a colon stops right before
the text, whatever the text is made of. As many characters are taken from there as were announced,
and the next length begins where they end.
-/

namespace TextGrammar

namespace Text

theorem splitAtFirst?_singleton {c : Char} {s : Text} (h : c ∉ s) (t : Text) :
    splitAtFirst? [c] (s ++ [c] ++ t) = some (s, t) := by
  rw [splitAtFirst?_eq_some_iff]
  refine ⟨rfl, fun b a heq => ?_⟩
  by_contra hlt
  -- An occurrence that begins earlier would lie within `s`.
  have hprefix : b ++ [c] <+: s ++ ([c] ++ t) := ⟨a, by rw [← heq, List.append_assoc]⟩
  have hle : (b ++ [c]).length ≤ s.length := by
    rw [List.length_append, List.length_singleton]
    omega
  have hs : b ++ [c] <+: s :=
    List.prefix_of_prefix_length_le hprefix (List.prefix_append s ([c] ++ t)) hle
  exact h (hs.subset (List.mem_append_right _ List.mem_cons_self))

theorem readWord?_ofNat {n : Nat} (h : n < wordLimit) : readWord? (ofNat n) = some n := by
  obtain ⟨c, digits, hdigits, hc⟩ := exists_ofNat_eq_cons n
  have hsign : dropStart? ['+'] (ofNat n) = none := by
    rw [dropStart?_eq_none_iff, hdigits]
    rintro ⟨rest, heq⟩
    obtain ⟨rfl, _⟩ := List.cons.inj heq
    cases hc
  have hne : ofNat n ≠ [] := Nat.toDigits_ne_nil
  have hall : (ofNat n).all Char.isDigit = true :=
    List.all_eq_true.2 fun _ hmem => isDigit_of_mem_ofNat hmem
  unfold readWord?
  rw [hsign, Option.getD_none]
  dsimp only
  rw [digitsValue_ofNat, if_pos ⟨hne, hall, h⟩]

end Text

namespace LengthPrefixed

open Text

variable {w : Text}

theorem scan_searchFor_encode (w t : Text) :
    (Scanner.searchFor [':']).scan (encode w ++ t) = .success (ofNat w.length) (w ++ t) := by
  have hcolon : ':' ∉ ofNat w.length := fun hmem => by cases isDigit_of_mem_ofNat hmem
  unfold Scanner.searchFor encode
  dsimp only
  rw [List.append_assoc _ w t, splitAtFirst?_singleton hcolon]

theorem announced_ofNat {n : Nat} (h : n < wordLimit) : announced [ofNat n] = n := by
  change (readWord? (ofNat n)).getD 0 = n
  rw [readWord?_ofNat h]
  rfl

theorem ending_parser_eq (s : Text) : (parser s).ending = (block.nestedBinds s).ending :=
  block.ending_eq_nestedBinds (by decide) s

theorem parser_finds_encode (hw : w.length < wordLimit) (t : Text) :
    (parser (encode w ++ t)).ending = .returns (.success (some w) t) := by
  have hsearch : (Parser.ofScanner (.searchFor [':']) (encode w ++ t)).ending =
      .returns (.success (ofNat w.length) (w ++ t)) :=
    congrArg Ending.returns (scan_searchFor_encode w t)
  have htake : (Parser.ofScanner (.take (announced [ofNat w.length])) (w ++ t)).ending =
      .returns (.success w t) := by
    rw [announced_ofNat hw]
    exact congrArg Ending.returns (Parser.scan_take_eq_success_iff.2 ⟨rfl, rfl⟩)
  calc
    _ = (block.nestedBinds (encode w ++ t)).ending := ending_parser_eq _
    _ = (Block.bindsFrom List.getLast? _ [ofNat w.length] (w ++ t)).ending :=
      Parser.ending_bind_of_success _ hsearch
    _ = (Block.bindsFrom List.getLast? [] [ofNat w.length, w] t).ending :=
      Parser.ending_bind_of_success _ htake
    _ = .returns (.success (some w) t) := rfl

theorem parser_fails_nil : ∃ error, (parser []).ending = .returns (.failure error) :=
  ⟨_, ending_parser_eq []⟩

variable {ws : List Text}

theorem many_parser_flatMap (h : ∀ w ∈ ws, w.length < wordLimit) :
    (parser.many (ws.flatMap encode)).ending =
      .returns (.success ((ws.take Bounds.any.most).map some)
        ((ws.drop Bounds.any.most).flatMap encode)) := by
  have hrepeat := Parser.ending_repeatWithin_flatMap ws Bounds.any.most parser_fails_nil
    fun w hw => parser_finds_encode (h w hw)
  rw [List.append_nil, List.append_nil] at hrepeat
  unfold Parser.many
  rw [Parser.repeated_of_le (Nat.zero_le _)]
  exact hrepeat

/-- A text is read back from what encodes it, and what follows is left as it is, whatever the texts
are made of. So any number of encodings in a row are read back one by one to their end, except that
a repetition stops when it has found as many values as a word can count. -/
theorem decodes_encodings :
    (∀ w t, w.length < wordLimit →
      (parser (encode w ++ t)).ending = .returns (.success (some w) t)) ∧
    (∀ ws : List Text, (∀ w ∈ ws, w.length < wordLimit) →
      (parser.many (ws.flatMap encode)).ending =
        .returns (.success ((ws.take Bounds.any.most).map some)
          ((ws.drop Bounds.any.most).flatMap encode))) ∧
    ∀ ws : List Text, (∀ w ∈ ws, w.length < wordLimit) → ws.length < wordLimit →
      (parser.many (ws.flatMap encode)).ending = .returns (.success (ws.map some) []) := by
  refine ⟨fun w t hw => parser_finds_encode hw t, fun ws => many_parser_flatMap, ?_⟩
  intro ws h hlength
  have hmost : ws.length ≤ Bounds.any.most := Nat.le_sub_one_of_lt hlength
  rw [many_parser_flatMap h, List.take_of_length_le hmost, List.drop_of_length_le hmost]
  rfl

/-- Digits and colons within a text, characters of several bytes, and empty texts. -/
theorem decodes_encodings_colons :
    (parser (['2', ':', 'é', '€'] ++ ['1', ':', 'x'])).ending =
      .returns (.success (some ['é', '€']) ['1', ':', 'x']) ∧
    (parser.many ['3', ':', '1', ':', ':', '0', ':', '2', ':', 'é', '€']).ending =
      .returns (.success [some ['1', ':', ':'], some [], some ['é', '€']] []) := by
  have hlimit : 3 < wordLimit := by decide
  refine ⟨?_, ?_⟩
  · exact decodes_encodings.1 ['é', '€'] ['1', ':', 'x'] (Nat.lt_of_succ_lt hlimit)
  · refine decodes_encodings.2.2 [['1', ':', ':'], [], ['é', '€']] ?_ hlimit
    intro w hw
    have hlength : w.length ≤ 3 := by
      simp only [List.mem_cons, List.not_mem_nil, or_false] at hw
      rcases hw with rfl | rfl | rfl <;> decide
    exact Nat.lt_of_le_of_lt hlength hlimit

end LengthPrefixed

end TextGrammar
