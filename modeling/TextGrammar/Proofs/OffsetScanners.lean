import Mathlib.Data.List.TakeDrop
import Mathlib.Data.List.TakeWhile
import TextGrammar.Proofs.Offsets

/-!
# Scanners that cut at offsets

Some scanners look for offsets and cut the text there, and a wrong cut would be a fault. With these
cuts they do the same as the scanners that split the text into characters.
-/

namespace TextGrammar

namespace Number

theorem span_point {whole tail : Text} (h : '.' ∉ whole) :
    (whole ++ '.' :: tail).span (· != '.') = (whole, '.' :: tail) := by
  have hw : ∀ c ∈ whole, (c != '.') = true :=
    fun c hc => bne_iff_ne.2 (ne_of_mem_of_not_mem hc h)
  rw [List.span_eq_takeWhile_dropWhile, List.takeWhile_append_of_pos hw,
    List.dropWhile_append_of_pos hw, List.takeWhile_cons_of_neg (by simp),
    List.dropWhile_cons_of_neg (by simp), List.append_nil]

theorem ofNumeral_append_point {numeral : Text} (h : numeral.count '.' = 1) (more : Text) :
    ofNumeral (numeral ++ '.' :: more) = ofNumeral numeral := by
  have hmem : '.' ∈ numeral := List.count_pos_iff.1 (by omega)
  obtain ⟨whole, fraction, rfl, hwhole⟩ := List.eq_append_cons_of_mem hmem
  have hf : ∀ c ∈ fraction, (c != '.') = true := by
    rw [List.count_append, List.count_cons_self, List.count_eq_zero.2 hwhole] at h
    have hcount : fraction.count '.' = 0 := by omega
    intro c hc
    rw [bne_iff_ne]
    rintro rfl
    exact List.count_eq_zero.1 hcount hc
  unfold ofNumeral
  rw [List.append_assoc, List.cons_append, span_point hwhole, span_point hwhole]
  dsimp only
  rw [List.takeWhile_append_of_pos hf, List.takeWhile_cons_of_neg (by simp), List.append_nil,
    List.takeWhile_eq_self_iff.2 hf]

end Number

namespace Parser

open Text Scanner

def breakToEndByOffset : Parser Text := fun input => do
  let (_, rest) ← cut (bytes input) input
  pure (.success input rest)

theorem breakToEndByOffset_eq : breakToEndByOffset = ofScanner Scanner.breakToEnd := by
  funext input
  unfold breakToEndByOffset
  rw [cut_bytes]
  rfl

def takeByOffset (n : Nat) : Parser Text := fun input => do
  match ← splitCharsByOffset n input with
  | some (taken, rest) => pure (.success taken rest)
  | none => pure (.failure (.tooShort n input.length))

theorem takeByOffset_eq (n : Nat) : takeByOffset n = ofScanner (Scanner.take n) := by
  funext input
  unfold takeByOffset
  rw [splitCharsByOffset_eq, LawfulMonad.pure_bind]
  change _ = pure ((Scanner.take n).scan input)
  unfold Scanner.take
  dsimp only
  cases splitChars? n input <;> rfl

/-- The two cuts are at the offset where the first occurrence of `needle` begins, and as many bytes
behind it as `needle` has. -/
def searchForByOffset (needle : Text) : Parser Text := fun input => do
  match offsetOf? needle input with
  | some offset =>
    let (before, _) ← cut offset input
    let (_, after) ← cut (offset + bytes needle) input
    pure (.success before after)
  | none => pure (.failure (.absent needle (preview input)))

theorem searchForByOffset_eq (needle : Text) :
    searchForByOffset needle = ofScanner (Scanner.searchFor needle) := by
  funext input
  unfold searchForByOffset
  rw [offsetOf?_eq]
  change _ = pure ((Scanner.searchFor needle).scan input)
  unfold Scanner.searchFor
  dsimp only
  cases hs : splitAtFirst? needle input with
  | none => rfl
  | some parts =>
    obtain ⟨before, after⟩ := parts
    obtain rfl := splitAtFirst?_eq_some hs
    have hbefore : cut (bytes before) (before ++ needle ++ after) =
        pure (before, needle ++ after) := by
      rw [List.append_assoc]
      exact cut_append before (needle ++ after)
    have hafter : cut (bytes before + bytes needle) (before ++ needle ++ after) =
        pure (before ++ needle, after) := by
      rw [← bytes_append]
      exact cut_append (before ++ needle) after
    dsimp only [Option.map_some]
    rw [hbefore, LawfulMonad.pure_bind, hafter]
    rfl

theorem cut_takeWhile (accept : Char → Bool) (input : Text) :
    cut ((offsets (fun c => !accept c) input)[0]?.getD (bytes input)) input =
      pure (input.takeWhile accept, input.dropWhile accept) := by
  have hpos : ∀ s : Text, s.countP (fun c => !accept c) = 0 → ∀ c ∈ s, accept c := by
    intro s hs c hc
    have hn := List.countP_eq_zero.1 hs c hc
    simpa using hn
  rcases offsets_getElem?_cases (fun c => !accept c) input 0 with
    ⟨pre, c, post, rfl, hc, hpre, hget⟩ | ⟨hnone, hget⟩
  · have hc : ¬ accept c := by simpa using hc
    rw [hget, Option.getD_some, cut_append, List.takeWhile_append_of_pos (hpos pre hpre),
      List.dropWhile_append_of_pos (hpos pre hpre), List.takeWhile_cons_of_neg hc,
      List.dropWhile_cons_of_neg hc, List.append_nil]
  · have hall := hpos input (Nat.le_zero.1 hnone)
    rw [hget, Option.getD_none, cut_bytes, List.takeWhile_eq_self_iff.2 hall,
      List.dropWhile_eq_nil_iff.2 hall]

def whitespaceByOffset : Parser Unit := fun input => do
  let stop := (offsets (fun c => !isSpace c) input)[0]?.getD (bytes input)
  let (_, rest) ← cut stop input
  pure (.success () rest)

theorem whitespaceByOffset_eq : whitespaceByOffset = ofScanner Scanner.whitespace := by
  funext input
  unfold whitespaceByOffset
  dsimp only
  rw [cut_takeWhile]
  rfl

/-- Reads a numeral up to its second point, if it has two. -/
def ofNumeralByOffset (numeral : Text) : Run Number :=
  match (offsets (· == '.') numeral)[1]? with
  | some point => do
    let (valid, _) ← cut point numeral
    return Number.ofNumeral valid
  | none => pure (Number.ofNumeral numeral)

theorem ofNumeralByOffset_eq (numeral : Text) :
    ofNumeralByOffset numeral = pure (Number.ofNumeral numeral) := by
  unfold ofNumeralByOffset
  rcases offsets_getElem?_cases (· == '.') numeral 1 with
    ⟨pre, c, post, rfl, hc, hpre, hget⟩ | ⟨_, hget⟩
  · obtain rfl : c = '.' := by simpa using hc
    rw [hget]
    dsimp only
    rw [cut_append, LawfulMonad.pure_bind, Number.ofNumeral_append_point hpre]
  · rw [hget]

def numberLiteralByOffset : Parser Number
  | [] => pure (.failure .noNumber)
  | c :: s =>
    if c.isDigit then do
      let stop := (offsets (fun d => !isNumeric d) (c :: s))[0]?.getD (bytes (c :: s))
      let (numeral, rest) ← cut stop (c :: s)
      return .success (← ofNumeralByOffset numeral) rest
    else pure (.failure (.notDigit c))

theorem numberLiteralByOffset_eq :
    numberLiteralByOffset = ofScanner Scanner.numberLiteral := by
  funext input
  change _ = pure (Scanner.numberLiteral.scan input)
  unfold numberLiteralByOffset Scanner.numberLiteral
  cases input with
  | nil => rfl
  | cons c s =>
    dsimp only
    split
    · rw [cut_takeWhile, LawfulMonad.pure_bind]
      dsimp only
      rw [ofNumeralByOffset_eq]
      rfl
    · rfl

end Parser

end TextGrammar
