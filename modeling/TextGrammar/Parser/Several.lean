import TextGrammar.Parser.Basic
import TextGrammar.Record

/-!
# Several parsers

All alternatives of a choice are applied to the same text. Ordered choice takes the first success;
the nearest choice takes the success that consumes least, and of equals the first.

The parsers of a sequence are applied one after the other, each to what the one before it leaves.
The values are listed in the order of the parsers, whichever end is applied first, or they are
collected by name. A field without a name counts as skipped.
-/

namespace TextGrammar

inductive Field (π ρ : Type) where
  | keep (key : Text) (kept : π)
  | skip (skipped : ρ)

namespace Parser

variable {α : Type}

/-! ## Choices -/

/-- If no alternative succeeds, the error is that of the last one. -/
def orElse (first : Parser α) : List (Parser α) → Parser α
  | [] => first
  | second :: others => fun input => do
    match ← first input with
    | .success value rest => pure (.success value rest)
    | .failure _ => orElse second others input

/-- Prefers an outcome to the best of those after it, unless one of them leaves more bytes. -/
def nearer : Outcome α → Option (α × Text) → Option (α × Text)
  | .failure _, best => best
  | .success value rest, none => some (value, rest)
  | .success value rest, some best =>
    if Text.bytes best.2 ≤ Text.bytes rest then some (value, rest) else some best

def leastConsuming : List (Parser α) → Text → Run (Option (α × Text))
  | [], _ => pure none
  | p :: others, input => do
    let outcome ← p input
    let best ← leastConsuming others input
    pure (nearer outcome best)

def nearest (alternatives : List (Parser α)) : Parser α := fun input => do
  match ← leastConsuming alternatives input with
  | some (value, rest) => pure (.success value rest)
  | none => pure (.failure (.noAlternative alternatives.length (Text.preview input)))

/-! ## Sequences -/

def pipe : List (Parser α) → Parser (List α)
  | [] => pure []
  | p :: others => do
    let value ← p
    let values ← pipe others
    pure (value :: values)

/-- Applies the parsers from right to left: the last one sees the text first. -/
def seq : List (Parser α) → Parser (List α)
  | [] => pure []
  | p :: others => do
    let values ← seq others
    let value ← p
    pure (value :: values)

theorem pipe_cons (p : Parser α) (others : List (Parser α)) :
    pipe (p :: others) = (do
      let value ← p
      let values ← pipe others
      pure (value :: values)) := rfl

theorem seq_cons (p : Parser α) (others : List (Parser α)) :
    seq (p :: others) = (do
      let values ← seq others
      let value ← p
      pure (value :: values)) := rfl

/-! ## Fields -/

/-- Adds the fields to a record, a later one overwriting an earlier one of the same name. -/
def fieldsInto (record : Record α) : List (Field (Parser α) (Parser Unit)) → Parser (Record α)
  | [] => pure record
  | .keep key p :: fields => do
    let value ← p
    fieldsInto (if key = [] then record else record.insert key value) fields
  | .skip p :: fields => do
    p
    fieldsInto record fields

def fields (fs : List (Field (Parser α) (Parser Unit))) : Parser (Record α) := fieldsInto [] fs

end Parser

end TextGrammar
