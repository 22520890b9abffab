import TextGrammar.Parser.Basic

/-!
# Repetitions

A parser applied again and again, each time to what it left before. A repetition within bounds
ends by itself, as the upper bound counts down; the others are given a number of rounds and are cut
off after that many.
-/

namespace TextGrammar

inductive Bounds where
  | any
  | atLeast (least : Nat)
  | atMost (most : Nat)
  | between (least most : Nat)
  deriving DecidableEq

namespace Bounds

def least : Bounds → Nat
  | any | atMost _ => 0
  | atLeast n | between n _ => n

/-- No repetition counts beyond the largest word. -/
def most : Bounds → Nat
  | any | atLeast _ => Text.wordLimit - 1
  | atMost n | between _ n => n

end Bounds

namespace Parser

variable {α β : Type}

/-- Applies `p` until it fails, but at most `most` times; a failure before `least` successes is
passed on. -/
def repeatWithin (p : Parser α) : (least most : Nat) → Parser (List α)
  | _, 0, input => pure (.success [] input)
  | least, most + 1, input => do
    match ← p input with
    | .success value rest => return (← repeatWithin p (least - 1) most rest).map (value :: ·)
    | .failure error =>
      if least = 0 then pure (.success [] input) else pure (.failure error)

def repeated (p : Parser α) (bounds : Bounds) : Parser (List α) := fun input =>
  if bounds.least ≤ bounds.most then repeatWithin p bounds.least bounds.most input
  else Run.fault (.invertedBounds bounds.least bounds.most)

def many (p : Parser α) : Parser (List α) := p.repeated .any

/-- Applies `p` until `stop` would succeed or `p` fails. What `stop` finds is not consumed. -/
def manyUntil (p : Parser α) (stop : Parser β) : (rounds : Nat) → Parser (List α)
  | 0, _ => Run.cutOff
  | rounds + 1, input => do
    match ← stop input with
    | .success .. => pure (.success [] input)
    | .failure _ =>
      match ← p input with
      | .success value rest => return (← manyUntil p stop rounds rest).map (value :: ·)
      | .failure _ => pure (.success [] input)

/-- Applies `separator` and then `p` as long as both succeed. A separator that no `p` follows is
not consumed. -/
def afterSeparators (p : Parser α) (separator : Parser β) : (rounds : Nat) → Parser (List α)
  | 0, _ => Run.cutOff
  | rounds + 1, input => do
    match ← separator input with
    | .failure _ => pure (.success [] input)
    | .success _ between =>
      match ← p between with
      | .failure _ => pure (.success [] input)
      | .success value rest =>
        return (← afterSeparators p separator rounds rest).map (value :: ·)

def sepBy (p : Parser α) (separator : Parser β) (rounds : Nat) : Parser (List α) := fun input => do
  match ← p input with
  | .failure _ => pure (.success [] input)
  | .success value rest => return (← afterSeparators p separator rounds rest).map (value :: ·)

theorem repeatWithin_zero (p : Parser α) (least : Nat) (input : Text) :
    p.repeatWithin least 0 input = pure (.success [] input) := by
  simp [repeatWithin]

theorem repeatWithin_succ (p : Parser α) (least most : Nat) (input : Text) :
    p.repeatWithin least (most + 1) input = (do
      match ← p input with
      | .success value rest => return (← repeatWithin p (least - 1) most rest).map (value :: ·)
      | .failure error =>
        if least = 0 then pure (.success [] input) else pure (.failure error)) := by
  rw [repeatWithin]

theorem repeated_of_le {p : Parser α} {bounds : Bounds} (h : bounds.least ≤ bounds.most)
    (input : Text) :
    p.repeated bounds input = p.repeatWithin bounds.least bounds.most input := if_pos h

theorem manyUntil_succ (p : Parser α) (stop : Parser β) (rounds : Nat) (input : Text) :
    p.manyUntil stop (rounds + 1) input = (do
      match ← stop input with
      | .success .. => pure (.success [] input)
      | .failure _ =>
        match ← p input with
        | .success value rest => return (← manyUntil p stop rounds rest).map (value :: ·)
        | .failure _ => pure (.success [] input)) := rfl

theorem afterSeparators_succ (p : Parser α) (separator : Parser β) (rounds : Nat) (input : Text) :
    p.afterSeparators separator (rounds + 1) input = (do
      match ← separator input with
      | .failure _ => pure (.success [] input)
      | .success _ between =>
        match ← p between with
        | .failure _ => pure (.success [] input)
        | .success value rest =>
          return (← afterSeparators p separator rounds rest).map (value :: ·)) := rfl

end Parser

end TextGrammar
