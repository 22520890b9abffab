import TextGrammar.Proofs.Numerals
import TextGrammar.Proofs.OffsetScanners

/-!
# Number literals

A numeral is the longest run of digits and points at the beginning of a text that begins with a
digit. It is converted by readers that refuse most texts: one for integers of 64 bits, and one for
decimal numbers with at most one point, which is given no more than what stands before a second
one. No numeral is refused by both, so a text is refused only for its first character.
-/

namespace TextGrammar

namespace Double

def infinity : Double := ⟨0x7ff0000000000000⟩

def notANumber : Double := ⟨0x7ff8000000000000⟩

def negate (d : Double) : Double := ⟨d.bits ^^^ 0x8000000000000000⟩

/-- The floating-point number nearest to the value of `whole`, a point and `fraction`, times a power
of ten. -/
def ofDecimal (whole fraction : Text) (power : Int) : Double :=
  let exponent := power - fraction.length
  .ofFloat (Float.ofScientific (Text.digitsValue (whole ++ fraction)) (exponent ≤ 0)
    exponent.natAbs)

theorem ofDecimal_zero (whole fraction : Text) :
    ofDecimal whole fraction 0 = Number.nearestDouble whole fraction := by
  have hexponent : (0 : Int) - fraction.length = -fraction.length := Int.zero_sub _
  have hle : -(fraction.length : Int) ≤ 0 := by omega
  unfold ofDecimal Number.nearestDouble
  simp only [hexponent, hle, decide_true, Int.natAbs_neg, Int.natAbs_natCast]

end Double

namespace Text

/-! ## Readers -/

/-- Whether a numeral is negative, and what follows its sign if it has one. -/
def splitSign : Text → Bool × Text
  | '-' :: s => (true, s)
  | '+' :: s => (false, s)
  | s => (false, s)

/-- Reads an optional sign and at least one digit, nothing else. -/
def readSigned? (s : Text) : Option Int :=
  let (negative, digits) := splitSign s
  if digits ≠ [] ∧ digits.all Char.isDigit then
    some (if negative then -digitsValue digits else digitsValue digits)
  else none

def readInt? (s : Text) : Option Int :=
  (readSigned? s).filter fun i => -0x8000000000000000 ≤ i ∧ i ≤ Number.maxInt

/-- Reads the power of ten at the end of a decimal number, which may be missing. -/
def readPower? : Text → Option Int
  | [] => some 0
  | 'e' :: s => readSigned? s
  | _ :: _ => none

def splitFraction : Text → Text × Text
  | '.' :: s => (s.takeWhile Char.isDigit, s.dropWhile Char.isDigit)
  | s => ([], s)

/-- Reads at least one digit, with at most one point before, among or behind the digits, and a power
of ten. -/
def readDecimal? (s : Text) : Option Double :=
  let whole := s.takeWhile Char.isDigit
  let (fraction, rest) := splitFraction (s.dropWhile Char.isDigit)
  if whole = [] ∧ fraction = [] then none
  else (readPower? rest).map (Double.ofDecimal whole fraction)

def readMagnitude? (s : Text) : Option Double :=
  if s = ['i', 'n', 'f'] ∨ s = ['i', 'n', 'f', 'i', 'n', 'i', 't', 'y'] then some .infinity
  else if s = ['n', 'a', 'n'] then some .notANumber
  else readDecimal? s

/-- Reads a floating-point number with an optional sign, in letters of either case. -/
def readDouble? (s : Text) : Option Double :=
  let (negative, magnitude) := splitSign s
  (readMagnitude? (magnitude.map Char.toLower)).map fun d => if negative then d.negate else d

def doubleRefusal (s : Text) : String :=
  if s = [] then "cannot parse float from empty string" else "invalid float literal"

def readDouble (s : Text) : Except String Double :=
  match readDouble? s with
  | some d => .ok d
  | none => .error (doubleRefusal s)

variable {c : Char} {s digits whole fraction : Text}

theorem toLower_of_isNumeric (h : Scanner.isNumeric c = true) : c.toLower = c := by
  unfold Char.toLower
  rw [dif_neg]
  rintro ⟨hA, _⟩
  simp only [Scanner.isNumeric, Char.isDigit, Bool.or_eq_true, Bool.and_eq_true, decide_eq_true_eq,
    beq_iff_eq] at h
  rcases h with ⟨_, hle⟩ | rfl
  · exact absurd (UInt32.le_trans hA hle) (by decide)
  · exact absurd hA (by decide)

theorem splitSign_of_isDigit (h : c.isDigit = true) (s : Text) :
    splitSign (c :: s) = (false, c :: s) := by
  unfold splitSign
  split
  · next heq =>
    obtain ⟨rfl, _⟩ := List.cons.inj heq
    cases h
  · next heq =>
    obtain ⟨rfl, _⟩ := List.cons.inj heq
    cases h
  · rfl

theorem readInt?_digits (hne : digits ≠ []) (h : ∀ c ∈ digits, c.isDigit = true) :
    readInt? digits =
      if digitsValue digits ≤ Number.maxInt then some (digitsValue digits : Int) else none := by
  have hsigned : readSigned? digits = some (digitsValue digits : Int) := by
    obtain ⟨c, s, rfl⟩ := List.exists_cons_of_ne_nil hne
    unfold readSigned?
    rw [splitSign_of_isDigit (h c List.mem_cons_self)]
    dsimp only
    rw [if_pos ⟨hne, List.all_eq_true.2 h⟩]
    rfl
  unfold readInt?
  rw [hsigned, Option.filter_some]
  by_cases hle : digitsValue digits ≤ Number.maxInt
  · rw [if_pos hle, if_pos (decide_eq_true (by omega))]
  · rw [if_neg hle, if_neg]
    rw [decide_eq_true_eq]
    omega

theorem readDouble?_of_isNumeric (hc : c.isDigit = true)
    (h : ∀ d ∈ c :: s, Scanner.isNumeric d = true) :
    readDouble? (c :: s) = readDecimal? (c :: s) := by
  have hlower : (c :: s).map Char.toLower = c :: s := by
    conv_rhs => rw [← List.map_id (c :: s)]
    exact List.map_congr_left fun d hd => toLower_of_isNumeric (h d hd)
  have hname : ∀ d name, d.isDigit = false → c :: s ≠ d :: name := by
    rintro d name hd heq
    obtain ⟨rfl, _⟩ := List.cons.inj heq
    exact absurd hc (by simp [hd])
  unfold readDouble?
  rw [splitSign_of_isDigit hc]
  dsimp only
  rw [hlower]
  unfold readMagnitude?
  rw [if_neg (not_or.2 ⟨hname _ _ rfl, hname _ _ rfl⟩), if_neg (hname _ _ rfl)]
  exact Option.map_id'

theorem readDecimal?_digits (hne : digits ≠ []) (h : ∀ c ∈ digits, c.isDigit = true) :
    readDecimal? digits = some (Number.nearestDouble digits []) := by
  unfold readDecimal?
  rw [List.takeWhile_eq_self_iff.2 h, List.dropWhile_eq_nil_iff.2 h]
  change (if digits = [] ∧ [] = [] then none else (readPower? []).map _) = _
  rw [if_neg (fun hnil => hne hnil.1), readPower?, Option.map_some, Double.ofDecimal_zero]

theorem readDecimal?_point (hne : whole ≠ []) (hw : ∀ c ∈ whole, c.isDigit = true)
    (hf : ∀ c ∈ fraction, c.isDigit = true) :
    readDecimal? (whole ++ '.' :: fraction) = some (Number.nearestDouble whole fraction) := by
  have hpoint : ¬ Char.isDigit '.' = true := Bool.false_ne_true
  have hsplit : splitFraction ('.' :: fraction) = (fraction, []) :=
    congrArg₂ Prod.mk (List.takeWhile_eq_self_iff.2 hf) (List.dropWhile_eq_nil_iff.2 hf)
  unfold readDecimal?
  rw [List.takeWhile_append_of_pos hw, List.dropWhile_append_of_pos hw,
    List.takeWhile_cons_of_neg hpoint, List.dropWhile_cons_of_neg hpoint, List.append_nil, hsplit]
  dsimp only
  rw [if_neg (fun hnil => hne hnil.1), readPower?, Option.map_some, Double.ofDecimal_zero]

theorem digitsValue_zeros (zeros : Nat) (digits : Text) :
    digitsValue (List.replicate zeros '0' ++ digits) = digitsValue digits := by
  induction zeros with
  | zero => rfl
  | succ zeros ih =>
    rw [List.replicate_succ, List.cons_append]
    exact ih

end Text

namespace Number

open Text Scanner

/-! ## What numerals stand for -/

/-- What stands before the second point of a run, which is all of it if there is none. -/
def BeforeSecondPoint (run valid : Text) : Prop :=
  valid = run ∧ run.count '.' ≤ 1 ∨ valid.count '.' = 1 ∧ ∃ more, run = valid ++ '.' :: more

/-- The number that a numeral stands for: an integer if it has no point and is not too large, and
otherwise the floating-point number read from what stands before a second point. -/
inductive Denotes (run : Text) : Number → Prop
  | int : '.' ∉ run → digitsValue run ≤ maxInt → Denotes run (.int (digitsValue run))
  | float {valid : Text} {d : Double} : ('.' ∉ run → maxInt < digitsValue run) →
    BeforeSecondPoint run valid → readDouble? valid = some d → Denotes run (.float d)

variable {run valid whole fraction : Text}

theorem isDigit_of_not_mem (h : ∀ c ∈ run, isNumeric c = true) (hpoint : '.' ∉ run) :
    ∀ c ∈ run, c.isDigit = true := by
  intro c hc
  have hne : c ≠ '.' := ne_of_mem_of_not_mem hc hpoint
  have hnumeric := h c hc
  simpa [Scanner.isNumeric, hne] using hnumeric

theorem ofNumeral_point (hw : '.' ∉ whole) (hf : '.' ∉ fraction) :
    ofNumeral (whole ++ '.' :: fraction) = .float (nearestDouble whole fraction) := by
  have hall : ∀ c ∈ fraction, (c != '.') = true :=
    fun c hc => bne_iff_ne.2 (ne_of_mem_of_not_mem hc hf)
  unfold ofNumeral
  rw [span_point hw]
  dsimp only
  rw [List.takeWhile_eq_self_iff.2 hall]

theorem IsNumeral.exists_readDouble? (h : IsNumeral run) (hcount : run.count '.' ≤ 1) :
    ∃ d, readDouble? run = some d ∧ ofNumeral run =
      if '.' ∉ run ∧ digitsValue run ≤ maxInt then .int (digitsValue run) else .float d := by
  obtain ⟨c, s, rfl, hc⟩ := h.begins
  rw [readDouble?_of_isNumeric hc h.isNumeric]
  by_cases hpoint : '.' ∈ c :: s
  · obtain ⟨whole, fraction, hrun, hwhole⟩ := List.eq_append_cons_of_mem hpoint
    have hne : whole ≠ [] := by
      rintro rfl
      obtain ⟨rfl, _⟩ := List.cons.inj hrun
      cases hc
    -- The one point that is allowed is the one before `fraction`.
    have hfraction : '.' ∉ fraction := by
      rw [hrun, List.count_append, List.count_cons_self, List.count_eq_zero.2 hwhole] at hcount
      exact List.count_eq_zero.1 (by omega)
    have hnumeric := h.isNumeric
    rw [hrun, List.forall_mem_append, List.forall_mem_cons] at hnumeric
    have hw := isDigit_of_not_mem hnumeric.1 hwhole
    have hf := isDigit_of_not_mem hnumeric.2.2 hfraction
    refine ⟨nearestDouble whole fraction, ?_, ?_⟩
    · rw [hrun, readDecimal?_point hne hw hf]
    · rw [if_neg (fun hint => hint.1 hpoint), hrun, ofNumeral_point hwhole hfraction]
  · have hdigits := isDigit_of_not_mem h.isNumeric hpoint
    refine ⟨nearestDouble (c :: s) [], readDecimal?_digits (List.cons_ne_nil c s) hdigits, ?_⟩
    rw [ofNumeral_digits hpoint]
    simp only [hpoint, not_false_eq_true, true_and]

theorem IsNumeral.of_append {more : Text} (h : IsNumeral (valid ++ '.' :: more))
    (hcount : valid.count '.' = 1) : IsNumeral valid where
  begins := by
    obtain ⟨c, s, hrun, hc⟩ := h.begins
    cases valid with
    | nil => cases hcount
    | cons d valid =>
      obtain ⟨rfl, _⟩ := List.cons.inj hrun
      exact ⟨d, valid, rfl, hc⟩
  isNumeric c hc := h.isNumeric c (List.mem_append_left _ hc)

theorem IsNumeral.exists_of_beforeSecondPoint (h : IsNumeral run)
    (hvalid : BeforeSecondPoint run valid) :
    ∃ d, readDouble? valid = some d ∧ ofNumeral run =
      if '.' ∉ run ∧ digitsValue run ≤ maxInt then .int (digitsValue run) else .float d := by
  rcases hvalid with ⟨rfl, hcount⟩ | ⟨hcount, more, rfl⟩
  · exact h.exists_readDouble? hcount
  · obtain ⟨d, hd, hn⟩ := (h.of_append hcount).exists_readDouble? (Nat.le_of_eq hcount)
    have hpoint : '.' ∈ valid := List.count_pos_iff.1 (by omega)
    refine ⟨d, hd, ?_⟩
    rw [ofNumeral_append_point hcount, hn, if_neg (fun hint => hint.1 hpoint),
      if_neg (fun hint => hint.1 (List.mem_append_left _ hpoint))]

end Number

/-! ## Scanning by way of the readers -/

namespace Parser

open Text Scanner Number

def cutSecondPoint (run : Text) : Run Text :=
  match (offsets (· == '.') run)[1]? with
  | some point => do
    let (valid, _) ← cut point run
    return valid
  | none => pure run

theorem exists_cutSecondPoint_eq (run : Text) :
    ∃ valid, BeforeSecondPoint run valid ∧ cutSecondPoint run = pure valid := by
  unfold cutSecondPoint
  rcases offsets_getElem?_cases (· == '.') run 1 with
    ⟨pre, c, post, rfl, hc, hpre, hget⟩ | ⟨hcount, hget⟩
  · obtain rfl : c = '.' := by simpa using hc
    refine ⟨pre, Or.inr ⟨hpre, post, rfl⟩, ?_⟩
    rw [hget]
    dsimp only
    rw [cut_append, LawfulMonad.pure_bind]
  · refine ⟨run, Or.inl ⟨rfl, hcount⟩, ?_⟩
    rw [hget]

/-- Reads a run without a point as an integer first, and any other as a floating-point number. -/
def convert (run : Text) : Run (Except String Number) :=
  if '.' ∈ run then do
    let valid ← cutSecondPoint run
    return (readDouble valid).map .float
  else
    match readInt? run with
    | some i => return .ok (.int i)
    | none => return (readDouble run).map .float

theorem convert_eq {run : Text} (h : IsNumeral run) :
    convert run = pure (.ok (ofNumeral run)) := by
  obtain ⟨valid, hvalid, hcut⟩ := exists_cutSecondPoint_eq run
  unfold convert
  by_cases hpoint : '.' ∈ run
  · obtain ⟨d, hd, hn⟩ := h.exists_of_beforeSecondPoint hvalid
    rw [if_pos hpoint, hcut, LawfulMonad.pure_bind, hn, if_neg (fun hint => hint.1 hpoint)]
    unfold readDouble
    rw [hd]
    rfl
  · have hcount : run.count '.' ≤ 1 := by
      rw [List.count_eq_zero.2 hpoint]
      exact Nat.zero_le 1
    obtain ⟨d, hd, hn⟩ := h.exists_of_beforeSecondPoint (Or.inl ⟨rfl, hcount⟩)
    rw [if_neg hpoint, readInt?_digits h.ne_nil (isDigit_of_not_mem h.isNumeric hpoint), hn]
    by_cases hle : digitsValue run ≤ maxInt
    · rw [if_pos hle, if_pos ⟨hpoint, hle⟩]
    · rw [if_neg hle, if_neg (fun hint => hle hint.2)]
      unfold readDouble
      rw [hd]
      rfl

/-- Cuts off the run of digits and points and converts it. A run that cannot be converted would be
refused. -/
def numberLiteralByConversion : Parser Number
  | [] => pure (.failure .noNumber)
  | c :: s =>
    if c.isDigit then do
      let stop := (offsets (fun d => !isNumeric d) (c :: s))[0]?.getD (bytes (c :: s))
      let (run, rest) ← cut stop (c :: s)
      match ← convert run with
      | .ok n => pure (.success n rest)
      | .error reason => pure (.failure (.stated .notNumber s!"{quote run}: {reason}"))
    else pure (.failure (.notDigit c))

end Parser

theorem Number.IsNumeral.denotes_iff {run : Text} {n : Number} (h : IsNumeral run) :
    Denotes run n ↔ ofNumeral run = n := by
  constructor
  · rintro (⟨hpoint, hle⟩ | ⟨hlarge, hvalid, hd⟩)
    · rw [ofNumeral_digits hpoint, if_pos hle]
    · obtain ⟨d, hd', hn⟩ := h.exists_of_beforeSecondPoint hvalid
      cases hd.symm.trans hd'
      rw [hn, if_neg (fun hint => Nat.not_lt.2 hint.2 (hlarge hint.1))]
  · rintro rfl
    obtain ⟨valid, hvalid, _⟩ := Parser.exists_cutSecondPoint_eq run
    obtain ⟨d, hd, hn⟩ := h.exists_of_beforeSecondPoint hvalid
    rw [hn]
    split
    · next hint => exact .int hint.1 hint.2
    · next hint =>
      have hlarge : '.' ∉ run → maxInt < Text.digitsValue run := fun hpoint =>
        Nat.lt_of_not_le fun hle => hint ⟨hpoint, hle⟩
      exact .float hlarge hvalid hd

namespace Scanner

open Text Number

variable {c : Char} {s input run rest : Text} {n : Number}

theorem isNumeral_takeWhile (hc : c.isDigit = true) (s : Text) :
    IsNumeral ((c :: s).takeWhile isNumeric) where
  begins := by
    have hnumeric : isNumeric c = true := by simp [isNumeric, hc]
    exact ⟨c, s.takeWhile isNumeric, List.takeWhile_cons_of_pos hnumeric, hc⟩
  isNumeric d hd := by simpa using List.mem_takeWhile_imp hd

theorem numberLiteralByConversion_eq :
    Parser.numberLiteralByConversion = Parser.ofScanner numberLiteral := by
  funext input
  change _ = pure (numberLiteral.scan input)
  cases input with
  | nil => rfl
  | cons c s =>
    unfold Parser.numberLiteralByConversion numberLiteral
    dsimp only
    split
    · next hc =>
      rw [Parser.cut_takeWhile, LawfulMonad.pure_bind]
      dsimp only
      rw [Parser.convert_eq (isNumeral_takeWhile hc s), LawfulMonad.pure_bind]
    · rfl

theorem scan_numberLiteral_eq_failure_iff {error : ParseError} :
    numberLiteral.scan input = .failure error ↔ input = [] ∧ error = .noNumber ∨
      ∃ c s, input = c :: s ∧ c.isDigit = false ∧ error = .notDigit c := by
  constructor
  · intro h
    cases input with
    | nil => exact Or.inl ⟨rfl, (Outcome.failure.inj h).symm⟩
    | cons c s =>
      unfold numberLiteral at h
      dsimp only at h
      split at h
      · cases h
      · next hc =>
        exact Or.inr ⟨c, s, rfl, eq_false_of_ne_true hc, (Outcome.failure.inj h).symm⟩
  · rintro (⟨rfl, rfl⟩ | ⟨c, s, rfl, hc, rfl⟩)
    · rfl
    · exact if_neg (ne_true_of_eq_false hc)

theorem scan_numberLiteral_eq_success_iff :
    numberLiteral.scan input = .success n rest ↔ ∃ run, input = run ++ rest ∧ IsNumeral run ∧
      (∀ c ∈ rest.head?, isNumeric c = false) ∧ Denotes run n := by
  constructor
  · intro h
    cases input with
    | nil => cases h
    | cons c s =>
      unfold numberLiteral at h
      dsimp only at h
      split at h
      · next hc =>
        obtain ⟨rfl, rfl⟩ := Outcome.success.inj h
        have hrun := isNumeral_takeWhile hc s
        refine ⟨_, List.takeWhile_append_dropWhile.symm, hrun, ?_, hrun.denotes_iff.2 rfl⟩
        intro d hd
        have hstop := List.head?_dropWhile_not isNumeric (c :: s)
        rw [Option.mem_def.1 hd] at hstop
        exact hstop
      · cases h
  · rintro ⟨run, rfl, hrun, hrest, hn⟩
    rw [scan_numberLiteral_append hrun hrest, hrun.denotes_iff.1 hn]

theorem scan_numberLiteral_zeros {i : Nat} (hi : i ≤ maxInt) (zeros : Nat)
    (hrest : ∀ c ∈ rest.head?, isNumeric c = false) :
    numberLiteral.scan (List.replicate zeros '0' ++ ofNat i ++ rest) = .success (.int i) rest := by
  have hdigits : ∀ c ∈ List.replicate zeros '0' ++ ofNat i, c.isDigit = true := by
    rw [List.forall_mem_append]
    refine ⟨fun c hc => ?_, fun c hc => isDigit_of_mem_ofNat hc⟩
    rw [List.eq_of_mem_replicate hc]
    rfl
  have hpoint : '.' ∉ List.replicate zeros '0' ++ ofNat i :=
    fun hmem => nomatch hdigits '.' hmem
  have hne : List.replicate zeros '0' ++ ofNat i ≠ [] :=
    List.append_ne_nil_of_right_ne_nil _ Nat.toDigits_ne_nil
  rw [scan_numberLiteral_append (.of_isDigit hne hdigits) hrest, ofNumeral_digits hpoint,
    digitsValue_zeros, digitsValue_ofNat, if_pos hi]

/-- A text is refused for its first character only, and a numeral is read off every other: the
longest run of digits and points at its beginning. Neither reader refuses what it is given, so the
run stands for an integer if it has no point and its value fits, however many zeros lead it, and
otherwise for the floating-point number before its second point. -/
theorem numberLiteral_reads_longest_run :
    (∀ input error, numberLiteral.scan input = .failure error ↔
      input = [] ∧ error = .noNumber ∨
        ∃ c s, input = c :: s ∧ c.isDigit = false ∧ error = .notDigit c) ∧
    (ParseError.noNumber.kind = .endOfInput ∧ ∀ c, (ParseError.notDigit c).kind = .notNumber) ∧
    (∀ input n rest, numberLiteral.scan input = .success n rest ↔
      ∃ run, input = run ++ rest ∧ IsNumeral run ∧ (∀ c ∈ rest.head?, isNumeric c = false) ∧
        Denotes run n) ∧
    Parser.numberLiteralByConversion = Parser.ofScanner numberLiteral ∧
    (∀ run, IsNumeral run → ∃ n, Denotes run n ∧ Parser.convert run = pure (.ok n)) ∧
    ∀ i ≤ maxInt, ∀ zeros rest, (∀ c ∈ rest.head?, isNumeric c = false) →
      numberLiteral.scan (List.replicate zeros '0' ++ ofNat i ++ rest) = .success (.int i) rest :=
  ⟨fun _ _ => scan_numberLiteral_eq_failure_iff, ⟨rfl, fun _ => rfl⟩,
    fun _ _ _ => scan_numberLiteral_eq_success_iff, numberLiteralByConversion_eq,
    fun run h => ⟨ofNumeral run, h.denotes_iff.2 rfl, Parser.convert_eq h⟩,
    fun _ hi zeros _ hrest => scan_numberLiteral_zeros hi zeros hrest⟩

/-- A second point ends what is read as a number, although the run goes on. What is read is the
nearest floating-point number, also where a run without a point is too large for an integer. -/
theorem numberLiteral_reads_longest_run_points :
    numberLiteral.scan ['1', '.', '.', '2', 'x'] =
      .success (.float ⟨0x3ff0000000000000⟩) ['x'] ∧
    numberLiteral.scan ['0', '.', '1'] = .success (.float ⟨0x3fb999999999999a⟩) [] ∧
    numberLiteral.scan (List.replicate 20 '9') = .success (.float ⟨0x4415af1d78b58c40⟩) [] ∧
    numberLiteral.scan (['0', '0'] ++ ofNat maxInt ++ [';']) = .success (.int maxInt) [';'] := by
  obtain ⟨-, -, hsuccess, -, -, hint⟩ := numberLiteral_reads_longest_run
  have hfloat : ∀ run valid rest d, IsNumeral run → (∀ c ∈ rest.head?, isNumeric c = false) →
      ('.' ∉ run → maxInt < digitsValue run) → BeforeSecondPoint run valid →
      readDouble? valid = some d → numberLiteral.scan (run ++ rest) = .success (.float d) rest :=
    fun run valid rest d hrun hrest hlarge hvalid hread =>
      (hsuccess _ _ _).2 ⟨run, rfl, hrun, hrest, .float hlarge hvalid hread⟩
  have hletter : ∀ c ∈ ['x'].head?, isNumeric c = false := by
    rintro c ⟨⟩
    rfl
  have hsemicolon : ∀ c ∈ [';'].head?, isNumeric c = false := by
    rintro c ⟨⟩
    rfl
  refine ⟨?_, ?_, ?_, hint maxInt (Nat.le_refl maxInt) 2 [';'] hsemicolon⟩
  · exact hfloat ['1', '.', '.', '2'] ['1', '.'] _ _ ⟨⟨'1', _, rfl, rfl⟩, List.all_eq_true.1 rfl⟩
      hletter (fun hpoint => absurd (by simp) hpoint) (Or.inr ⟨rfl, ['2'], rfl⟩) rfl
  · exact hfloat ['0', '.', '1'] _ [] _ ⟨⟨'0', _, rfl, rfl⟩, List.all_eq_true.1 rfl⟩
      nofun (fun hpoint => absurd (by simp) hpoint) (Or.inl ⟨rfl, by decide⟩) rfl
  · exact hfloat (List.replicate 20 '9') _ [] _ ⟨⟨'9', _, rfl, rfl⟩, List.all_eq_true.1 rfl⟩
      nofun (fun _ => by decide) (Or.inl ⟨rfl, by decide⟩) rfl

end Scanner

end TextGrammar
