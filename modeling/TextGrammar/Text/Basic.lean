/-!
# Texts

A text is a list of characters. Its byte length is the length of its UTF-8 encoding, and a cut
at a byte count exists only where the count falls between two characters. Numbers are written in
base ten and read from a run of ASCII digits.
-/

namespace TextGrammar

abbrev Text := List Char

namespace Text

/-- Space, tab, newline and carriage return; no other character is blank. -/
def isSpace (c : Char) : Bool :=
  c = ' ' || c = '\t' || c = '\n' || c = '\r'

def bytes : Text → Nat
  | [] => 0
  | c :: s => c.utf8Size + bytes s

@[simp] theorem bytes_nil : bytes [] = 0 := rfl

@[simp] theorem bytes_cons (c : Char) (s : Text) : bytes (c :: s) = c.utf8Size + bytes s := rfl

@[simp] theorem bytes_append (s t : Text) : bytes (s ++ t) = bytes s + bytes t := by
  induction s with
  | nil => simp
  | cons c s ih => simp [ih, Nat.add_assoc]

def splitChars? (n : Nat) (s : Text) : Option (Text × Text) :=
  if n ≤ s.length then some (s.take n, s.drop n) else none

theorem splitChars?_eq_some {n : Nat} {s head tail : Text}
    (h : splitChars? n s = some (head, tail)) : s = head ++ tail := by
  unfold splitChars? at h
  split at h
  · obtain ⟨rfl, rfl⟩ := Prod.mk.inj (Option.some.inj h)
    exact (List.take_append_drop n s).symm
  · contradiction

/-- The beginning of `s` that is `n` bytes long; none if `s` is shorter or the cut falls inside a
character. -/
def takeBytes? : Nat → Text → Option Text
  | 0, _ => some []
  | _ + 1, [] => none
  | n + 1, c :: s =>
    if c.utf8Size ≤ n + 1 then (takeBytes? (n + 1 - c.utf8Size) s).map (c :: ·) else none

def previewLength : Nat := 100

def preview (s : Text) : Text := s.take previewLength

/-- What follows `start` in a text that begins with it. -/
def dropStart? : Text → Text → Option Text
  | [], s => some s
  | _ :: _, [] => none
  | c :: start, d :: s => if c = d then dropStart? start s else none

theorem dropStart?_eq_some_iff {start s rest : Text} :
    dropStart? start s = some rest ↔ s = start ++ rest := by
  induction start generalizing s with
  | nil => simp [dropStart?]
  | cons c start ih =>
    cases s with
    | nil => simp [dropStart?]
    | cons d s =>
      by_cases h : c = d
      · simp [dropStart?, h, ih]
      · simp [dropStart?, h, Ne.symm h]

theorem dropStart?_eq_none_iff {start s : Text} : dropStart? start s = none ↔ ¬ start <+: s := by
  rw [Option.eq_none_iff_forall_ne_some]
  constructor
  · rintro h ⟨rest, hrest⟩
    exact h rest (dropStart?_eq_some_iff.2 hrest.symm)
  · intro h rest hrest
    exact h ⟨rest, (dropStart?_eq_some_iff.1 hrest).symm⟩

/-- The text before the first occurrence of `needle`, and the text after that occurrence. -/
def splitAtFirst? (needle : Text) : Text → Option (Text × Text)
  | [] => if needle = [] then some ([], []) else none
  | c :: s =>
    match dropStart? needle (c :: s) with
    | some after => some ([], after)
    | none => (splitAtFirst? needle s).map fun (before, after) => (c :: before, after)

theorem splitAtFirst?_eq_some {needle s before after : Text}
    (h : splitAtFirst? needle s = some (before, after)) : s = before ++ needle ++ after := by
  induction s generalizing before with
  | nil =>
    simp only [splitAtFirst?, Option.ite_none_right_eq_some, Option.some.injEq,
      Prod.mk.injEq] at h
    obtain ⟨rfl, rfl, rfl⟩ := h
    rfl
  | cons c s ih =>
    simp only [splitAtFirst?] at h
    split at h
    · next hd =>
      obtain ⟨rfl, rfl⟩ := Prod.mk.inj (Option.some.inj h)
      exact dropStart?_eq_some_iff.1 hd
    · obtain ⟨⟨b, a⟩, hb, he⟩ := Option.map_eq_some_iff.1 h
      obtain ⟨rfl, rfl⟩ := Prod.mk.inj he
      simp [ih hb]

/-! ## Decimal numerals -/

def ofNat (n : Nat) : Text := Nat.toDigits 10 n

def ofInt : Int → Text
  | .ofNat n => ofNat n
  | .negSucc n => '-' :: ofNat (n + 1)

/-- The value of a run of digits; leading zeros do not matter. -/
def digitsValue (digits : Text) : Nat :=
  digits.foldl (fun value c => 10 * value + (c.toNat - '0'.toNat)) 0

/-- A word is an unsigned number of 64 bits. -/
def wordLimit : Nat := 0x10000000000000000

/-- Reads a word: an optional plus sign and at least one digit, nothing else. -/
def readWord? (s : Text) : Option Nat :=
  let digits := (dropStart? ['+'] s).getD s
  if digits ≠ [] ∧ digits.all Char.isDigit ∧ digitsValue digits < wordLimit then
    some (digitsValue digits)
  else none

end Text

end TextGrammar
