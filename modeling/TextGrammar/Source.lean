import TextGrammar.Parser.Basic

/-!
# Byte sources

A source answers one request for a byte after the other: with a byte, with a failure, or with
nothing because it has ended for now. After its last answer it stays ended. A decoder reads one
character from it, and gives up where a read fails, whatever it has read of the character by then.
Whoever asks for characters drops such failures and asks the decoder again.
-/

namespace TextGrammar

inductive Read where
  | byte (b : UInt8)
  | failed
  | ended

abbrev Source := List Read

namespace Source

/-! ## The decoder -/

/-- Stands for bytes that form no character. -/
def replacement : Char := '\ufffd'

/-- A lead byte announces how many bytes follow. Of a longer character only the last six bits are
kept, and they are set into the bits of `base`. -/
inductive Lead where
  | single (c : Char)
  | malformed
  | begins (base : UInt8) (following : Nat)

def lead (b : UInt8) : Lead :=
  if b < 0x80 then .single (Char.ofUInt8 b)
  else if b < 0xc0 then .malformed
  else if b < 0xe0 then .begins 0xc0 1
  else if b < 0xf0 then .begins 0x80 2
  else if b < 0xf8 then .begins 0x80 3
  else .malformed

def isContinuation (b : UInt8) : Bool := 0x80 ≤ b && b < 0xc0

def assemble (base last : UInt8) : Char := Char.ofUInt8 (base ||| (last &&& 0x3f))

/-- The decoder between two reads: it has read nothing, or a lead byte that announces others. -/
inductive Reading where
  | start
  | within (base : UInt8) (following : Nat)

inductive Answer where
  | char (c : Char)
  | failed
  | ended
  deriving DecidableEq

namespace Reading

def atEnd : Reading → Answer
  | start => .ended
  | within .. => .char replacement

/-- A byte that continues nothing is consumed. -/
def afterByte : Reading → UInt8 → Reading ⊕ Answer
  | start, b =>
    match lead b with
    | .single c => .inr (.char c)
    | .malformed => .inr (.char replacement)
    | .begins base following => .inl (within base following)
  | within base following, b =>
    if !isContinuation b then .inr (.char replacement)
    else if following ≤ 1 then .inr (.char (assemble base b))
    else .inl (within base (following - 1))

def after (reading : Reading) : Read → Reading ⊕ Answer
  | .byte b => reading.afterByte b
  | .failed => .inr .failed
  | .ended => .inr reading.atEnd

def decode : Reading → Source → Answer × Source
  | reading, [] => (reading.atEnd, [])
  | reading, r :: source =>
    match reading.after r with
    | .inl reading => decode reading source
    | .inr answer => (answer, source)

theorem decode_cons (reading : Reading) (r : Read) (source : Source) :
    reading.decode (r :: source) =
      match reading.after r with
      | .inl reading => reading.decode source
      | .inr answer => (answer, source) := rfl

theorem decode_length_le (reading : Reading) (source : Source) :
    (reading.decode source).2.length ≤ source.length - 1 := by
  induction source generalizing reading with
  | nil => exact Nat.le_refl _
  | cons r source ih =>
    rw [decode_cons]
    cases reading.after r with
    | inl reading => exact Nat.le_trans (ih reading) (Nat.sub_le _ _)
    | inr answer => exact Nat.le_refl _

theorem decode_start_length_lt {source rest : Source} {answer : Answer}
    (h : start.decode source = (answer, rest)) (hanswer : answer ≠ .ended) :
    rest.length < source.length := by
  cases source with
  | nil =>
    cases h
    exact absurd rfl hanswer
  | cons r source =>
    have hle := decode_length_le start (r :: source)
    rw [h] at hle
    exact Nat.lt_succ_of_le hle

end Reading

/-! ## Characters and texts -/

/-- The next character and the source after it. The decoder is asked again after a failure, and an
end ends the search: a later request goes on reading behind it. -/
def next (source : Source) : Option Char × Source :=
  match h : Reading.start.decode source with
  | (.char c, rest) => (some c, rest)
  | (.ended, rest) => (none, rest)
  | (.failed, rest) =>
    have := Reading.decode_start_length_lt h nofun
    next rest
termination_by source.length

variable {source rest : Source} {c : Char}

theorem next_eq (source : Source) :
    next source =
      match Reading.start.decode source with
      | (.char c, rest) => (some c, rest)
      | (.ended, rest) => (none, rest)
      | (.failed, rest) => next rest := by
  rw [next]
  split
  all_goals next h => simp only [h]

theorem next_length_lt (h : next source = (some c, rest)) : rest.length < source.length := by
  induction source using next.induct with
  | case1 source c' rest' hdecode =>
    rw [next_eq, hdecode] at h
    cases h
    exact Reading.decode_start_length_lt hdecode nofun
  | case2 source rest' hdecode =>
    rw [next_eq, hdecode] at h
    cases h
  | case3 source rest' hdecode hlt ih =>
    rw [next_eq, hdecode] at h
    exact Nat.lt_trans (ih h) hlt

/-- All characters up to the first request that finds none. -/
def readText (source : Source) : Text :=
  match h : next source with
  | (none, _) => []
  | (some c, rest) =>
    have := next_length_lt h
    c :: readText rest
termination_by source.length

theorem readText_eq (source : Source) :
    readText source =
      match next source with
      | (none, _) => []
      | (some c, rest) => c :: readText rest := by
  rw [readText]
  split
  all_goals next h => simp only [h]

def nextChars : Nat → Source → List (Option Char)
  | 0, _ => []
  | times + 1, source => (next source).1 :: nextChars times (next source).2

/-- The source that delivers a text in UTF-8 without failures. -/
def ofText (s : Text) : Source := (s.flatMap String.utf8EncodeChar).map .byte

end Source

def Parser.parseSource {α : Type} (p : Parser α) (source : Source) :
    Run (Except ParseError α) := do
  let input := source.readText
  Run.note (.inputRead (Text.bytes input))
  p.parse input

end TextGrammar
