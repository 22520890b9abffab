import Mathlib.Data.List.TakeDrop
import Mathlib.Data.List.TakeWhile
import TextGrammar.Scanner

/-!
# Reading numerals back

A numeral is taken as a whole where nothing that belongs to it follows. So a number written in base
ten is read back.
-/

namespace TextGrammar

namespace Text

theorem digitsValue_ofNat (n : Nat) : digitsValue (ofNat n) = n :=
  Nat.ofDigitChars_toDigits (by decide) (by decide)

theorem isDigit_of_mem_ofNat {n : Nat} {c : Char} (h : c ∈ ofNat n) : c.isDigit = true :=
  Nat.isDigit_of_mem_toDigits (by decide) (by decide) h

theorem exists_ofNat_eq_cons (n : Nat) : ∃ c digits, ofNat n = c :: digits ∧ c.isDigit = true := by
  obtain ⟨c, digits, hdigits⟩ := List.exists_cons_of_ne_nil (Nat.toDigits_ne_nil (n := n) (b := 10))
  refine ⟨c, digits, hdigits, isDigit_of_mem_ofNat (n := n) ?_⟩
  unfold ofNat
  rw [hdigits]
  exact List.mem_cons_self

end Text

namespace Number

open Text

/-- A run of digits and points that begins with a digit. -/
structure IsNumeral (run : Text) : Prop where
  begins : ∃ c s, run = c :: s ∧ c.isDigit = true
  isNumeric : ∀ c ∈ run, Scanner.isNumeric c = true

variable {run : Text}

theorem IsNumeral.ne_nil (h : IsNumeral run) : run ≠ [] := by
  obtain ⟨c, s, rfl, _⟩ := h.begins
  exact List.cons_ne_nil c s

theorem IsNumeral.of_isDigit (hne : run ≠ []) (h : ∀ c ∈ run, c.isDigit = true) :
    IsNumeral run where
  begins := by
    obtain ⟨c, s, rfl⟩ := List.exists_cons_of_ne_nil hne
    exact ⟨c, s, rfl, h c List.mem_cons_self⟩
  isNumeric c hc := by simp [Scanner.isNumeric, h c hc]

theorem ofNumeral_digits (h : '.' ∉ run) :
    ofNumeral run =
      if digitsValue run ≤ maxInt then .int (digitsValue run)
      else .float (nearestDouble run []) := by
  have hall : ∀ c ∈ run, (c != '.') = true :=
    fun c hc => bne_iff_ne.2 (ne_of_mem_of_not_mem hc h)
  unfold ofNumeral
  rw [List.span_eq_takeWhile_dropWhile, List.takeWhile_eq_self_iff.2 hall,
    List.dropWhile_eq_nil_iff.2 hall]

theorem ofNumeral_ofNat {n : Nat} (h : n ≤ maxInt) : ofNumeral (ofNat n) = .int n := by
  have hpoint : '.' ∉ ofNat n := fun hmem => nomatch isDigit_of_mem_ofNat hmem
  rw [ofNumeral_digits hpoint, digitsValue_ofNat, if_pos h]

end Number

namespace Scanner

open Text Number

variable {run rest : Text}

theorem scan_numberLiteral_append (h : IsNumeral run)
    (hrest : ∀ c ∈ rest.head?, isNumeric c = false) :
    numberLiteral.scan (run ++ rest) = .success (ofNumeral run) rest := by
  obtain ⟨c, s, rfl, hc⟩ := h.begins
  have htake : rest.takeWhile isNumeric = [] := by
    cases rest with
    | nil => rfl
    | cons d t => exact List.takeWhile_cons_of_neg (by simp [hrest d rfl])
  have hdrop : rest.dropWhile isNumeric = rest := by
    cases rest with
    | nil => rfl
    | cons d t => exact List.dropWhile_cons_of_neg (by simp [hrest d rfl])
  have hscan : numberLiteral.scan (c :: s ++ rest) =
      .success (ofNumeral ((c :: s ++ rest).takeWhile isNumeric))
        ((c :: s ++ rest).dropWhile isNumeric) := if_pos hc
  rw [hscan, List.takeWhile_append_of_pos h.isNumeric, List.dropWhile_append_of_pos h.isNumeric,
    htake, hdrop, List.append_nil]

theorem scan_numberLiteral_ofNat {n : Nat} (hn : n ≤ maxInt)
    (hrest : ∀ c ∈ rest.head?, isNumeric c = false) :
    numberLiteral.scan (ofNat n ++ rest) = .success (.int n) rest := by
  have hrun : IsNumeral (ofNat n) :=
    .of_isDigit Nat.toDigits_ne_nil fun _ hc => isDigit_of_mem_ofNat hc
  rw [scan_numberLiteral_append hrun hrest, ofNumeral_ofNat hn]

end Scanner

end TextGrammar
