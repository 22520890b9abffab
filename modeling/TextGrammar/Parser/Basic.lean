import TextGrammar.Run
import TextGrammar.Scanner

/-!
# Parsers

A parser is applied to a text and gives a run that returns an outcome. Sequencing applies the
second parser to what the first one leaves, and stops at the first failure.

A bounded parser sees the text up to a marker. How much that is is found by length alone: it has as
many bytes as the marker consumed of the input, and the marker's match belongs to it. A traced
parser logs the text it sees and its outcome, under a label. Text that remains of a whole input is
ignored; a parser that ends with the end of input refuses it.
-/

namespace TextGrammar

def Parser (α : Type) : Type := Text → Run (Outcome α)

namespace Parser

variable {α β γ : Type}

def ofScanner (s : Scanner α) : Parser α := fun input => pure (s.scan input)

protected def pure (value : α) : Parser α := fun input => pure (.success value input)

def fail (error : ParseError) : Parser α := fun _ => pure (.failure error)

/-- Continues with the parser chosen for the value found. -/
protected def bind (p : Parser α) (f : α → Parser β) : Parser β := fun input => do
  match ← p input with
  | .success value rest => f value rest
  | .failure error => pure (.failure error)

instance : Monad Parser where
  pure := Parser.pure
  bind := Parser.bind

protected def map (f : α → β) (p : Parser α) : Parser β :=
  p.bind fun value => Parser.pure (f value)

/-- The value of `p`, with nothing consumed. -/
def peek (p : Parser α) : Parser α := fun input => do
  match ← p input with
  | .success value _ => pure (.success value input)
  | .failure error => pure (.failure error)

def ignore (p : Parser α) : Parser Unit := p.map fun _ => ()

def followedBy (p : Parser α) (next : Parser β) : Parser β := p.bind fun _ => next

/-- Tells by an option whether `p` succeeds; where it fails, nothing is consumed. -/
def optional (p : Parser α) : Parser (Option α) := fun input => do
  match ← p input with
  | .success value rest => pure (.success (some value) rest)
  | .failure _ => pure (.success none input)

theorem pure_bind (value : α) (f : α → Parser β) : (Parser.pure value).bind f = f value := rfl

theorem bind_pure (p : Parser α) : p.bind Parser.pure = p := by
  funext input
  have h : p.bind Parser.pure input = (p input).bind Run.pure :=
    congrArg (Run.bind (p input)) (funext fun o => by cases o <;> rfl)
  rw [h, Run.bind_pure]

theorem bind_assoc (p : Parser α) (f : α → Parser β) (g : β → Parser γ) :
    (p.bind f).bind g = p.bind fun value => (f value).bind g := by
  funext input
  simp only [Parser.bind, LawfulMonad.bind_assoc]
  refine congrArg (p input >>= ·) (funext fun o => ?_)
  cases o <;> rfl

instance : LawfulMonad Parser :=
  LawfulMonad.mk' Parser bind_pure pure_bind bind_assoc

theorem map_ofScanner (f : α → β) (scanner : Scanner α) :
    (ofScanner scanner).map f = ofScanner (scanner.map f) := by
  funext input
  change pure (scanner.scan input) >>= _ = pure ((scanner.scan input).map f)
  rw [LawfulMonad.pure_bind]
  cases scanner.scan input <;> rfl

/-! ## Bounded parsers -/

/-- The span of `input` that ends where a marker leaves `after`. -/
def span (input after : Text) : Run Text :=
  let whole := Text.bytes input
  let left := Text.bytes after
  if whole < left then Run.fault .grownRest
  else
    match Text.takeBytes? (whole - left) input with
    | some part => pure part
    | none => Run.fault .splitCharacter

/-- Applies `p` to the span up to and including the marker. What `p` leaves of the span is left,
and nothing behind it. -/
def before (p : Parser α) (marker : Parser β) : Parser α := fun input => do
  match ← marker input with
  | .success _ after => p (← span input after)
  | .failure error => pure (.failure error)

/-! ## Traced parsers -/

def noteOutcome (label : String) (input : Text) : Outcome α → Run Unit
  | .success _ rest =>
    let whole := Text.bytes input
    let left := Text.bytes rest
    if whole < left then Run.fault .grownRest
    else Run.note (.consumed label (whole - left) (Text.preview rest))
  | .failure error => Run.note (.failed label error)

def trace (label : String) (p : Parser α) : Parser α := fun input => do
  Run.note (.entered label (Text.preview input))
  let outcome ← p input
  noteOutcome label input outcome
  pure outcome

/-! ## Whole inputs -/

def parse (p : Parser α) (input : Text) : Run (Except ParseError α) := do
  match ← p input with
  | .success value _ => pure (.ok value)
  | .failure error =>
    Run.note (.rejected error)
    pure (.error error)

/-- Applies `p` to the input, then to what it left, and so on, ending with the first failure. -/
def chain (p : Parser α) : (times : Nat) → Text → Run (List (Outcome α))
  | 0, _ => pure []
  | times + 1, input => do
    match ← p input with
    | .success value rest => return .success value rest :: (← chain p times rest)
    | .failure error => pure [.failure error]

end Parser

end TextGrammar
