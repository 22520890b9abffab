import TextGrammar.Parser.Basic

/-!
# Procedures

A procedure is a state that can be resumed. Each time it either asks for a parser to be applied or
is done. The interpreter applies each parser to what the one before it left and resumes the
procedure with its value; the first failure ends the procedure. The interpreter counts the parsers
that have succeeded, and a count that outgrows its word is a fault.

A block is a procedure given by a list of steps. Each step chooses its parser by the values bound
before it, and when all have succeeded the values are finished into the result.
-/

namespace TextGrammar

inductive Step (π ω : Type) where
  | yield (asked : π)
  | done (output : ω)

structure Procedure (σ ν ω : Type) where
  start : σ
  resume : σ → Option ν → Run (σ × Step (Parser ν) ω)

namespace Procedure

variable {σ ν ω : Type}

/-- The count of the interpreter is a signed number of 32 bits, and this is the first one that it
cannot be. -/
def countLimit : Nat := 0x80000000

def countUp (steps : Nat) : Run Nat :=
  if steps + 1 < countLimit then pure (steps + 1) else Run.fault .countOverflow

theorem countUp_of_lt {steps : Nat} (h : steps + 1 < countLimit) :
    countUp steps = pure (steps + 1) := if_pos h

theorem countUp_of_le {steps : Nat} (h : countLimit ≤ steps + 1) :
    countUp steps = Run.fault .countOverflow := if_neg (Nat.not_lt.2 h)

/-- Goes on from a state with the value to resume it with, after `steps` parsers have succeeded. -/
def proceed (procedure : Procedure σ ν ω) :
    (rounds steps : Nat) → σ → Option ν → Parser ω
  | 0, _, _, _, _ => Run.cutOff
  | rounds + 1, steps, state, value, input => do
    let (state, step) ← procedure.resume state value
    match step with
    | .done output => pure (.success output input)
    | .yield p =>
      match ← p input with
      | .success value rest =>
        let steps ← countUp steps
        proceed procedure rounds steps state (some value) rest
      | .failure error =>
        Run.note (.abandoned steps error)
        pure (.failure error)

theorem proceed_succ (procedure : Procedure σ ν ω) (rounds steps : Nat) (state : σ)
    (value : Option ν) (input : Text) :
    procedure.proceed (rounds + 1) steps state value input = (do
      let (state, step) ← procedure.resume state value
      match step with
      | .done output => pure (.success output input)
      | .yield p =>
        match ← p input with
        | .success value rest =>
          let steps ← countUp steps
          procedure.proceed rounds steps state (some value) rest
        | .failure error =>
          Run.note (.abandoned steps error)
          pure (.failure error)) := rfl

def interpret (procedure : Procedure σ ν ω) (rounds : Nat) : Parser ω :=
  procedure.proceed rounds 0 procedure.start none

end Procedure

structure Block (ν ω : Type) where
  steps : List (List ν → Run (Parser ν))
  finish : List ν → ω

namespace Block

variable {ν ω : Type}

/-- The values bound so far are the state; their number tells which step is next. -/
def procedure (block : Block ν ω) : Procedure (List ν) ν ω where
  start := []
  resume bound value := do
    let bound := bound ++ value.toList
    match block.steps[bound.length]? with
    | some step => return (bound, .yield (← step bound))
    | none => return (bound, .done (block.finish bound))

def parser (block : Block ν ω) : Parser ω := block.procedure.interpret (block.steps.length + 1)

end Block

/-!
## A block for length-prefixed texts

A text is written as the decimal number of its characters, a colon, and its characters. The second
step takes as many characters as the first one found.
-/

namespace LengthPrefixed

def encode (s : Text) : Text := Text.ofNat s.length ++ [':'] ++ s

/-- How many characters the first bound text announces; what is no number announces none. -/
def announced (bound : List Text) : Nat := ((bound[0]?).bind Text.readWord?).getD 0

def block : Block Text (Option Text) where
  steps :=
    [fun _ => pure (.ofScanner (.searchFor [':'])),
      fun bound => pure (.ofScanner (.take (announced bound)))]
  finish := List.getLast?

def parser : Parser (Option Text) := block.parser

end LengthPrefixed

end TextGrammar
