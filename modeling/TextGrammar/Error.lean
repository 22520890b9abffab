import TextGrammar.Text.Quoted

/-!
# Parse errors

Why a parser fails. An error keeps what it found and a preview of the text it looked at; its
wording is fixed here alone.
-/

namespace TextGrammar

inductive ErrorKind where
  | endOfInput
  | literalMismatch
  | substringNotFound
  | notWhitespace
  | notNumber
  | genericFailure
  | unexpectedTrailingInput
  deriving DecidableEq

namespace ErrorKind

def display : ErrorKind → String
  | endOfInput => "end of input"
  | literalMismatch => "literal mismatch"
  | substringNotFound => "substring not found"
  | notWhitespace => "not whitespace"
  | notNumber => "not a number"
  | genericFailure => "failure"
  | unexpectedTrailingInput => "unexpected trailing input"

end ErrorKind

inductive ParseError where
  | unequal (literal found preview : Text)
  | excluded (literal : Text)
  | noCharacter
  | tooShort (wanted left : Nat)
  | notBlank (found : Option Char)
  | absent (needle preview : Text)
  | trailing (count : Nat) (preview : Text)
  | noNumber
  | notDigit (found : Char)
  | noAlternative (count : Nat) (preview : Text)
  | stated (kind : ErrorKind) (message : String)
  deriving DecidableEq

namespace ParseError

/-- The error of a grammar that refuses a text for reasons of its own. -/
def failure (message : String) : ParseError := .stated .genericFailure message

def kind : ParseError → ErrorKind
  | unequal .. | excluded _ => .literalMismatch
  | noCharacter | tooShort .. | noNumber => .endOfInput
  | notBlank _ => .notWhitespace
  | absent .. => .substringNotFound
  | trailing .. => .unexpectedTrailingInput
  | notDigit _ => .notNumber
  | noAlternative .. => .genericFailure
  | stated kind _ => kind

open Text in
def message : ParseError → String
  | unequal literal found preview =>
    s!"expected {quote literal}, found {quote found} in {quote preview}"
  | excluded literal => s!"expected anything but {quote literal}"
  | noCharacter => "expected any character"
  | tooShort wanted left => s!"expected {wanted} characters, only {left} left"
  | notBlank none => "expected whitespace, found end of input"
  | notBlank (some c) => s!"expected whitespace, found {quoteChar c}"
  | absent needle preview => s!"{quote needle} not found in {quote preview}"
  | trailing count preview => s!"{count} characters left: {quote preview}"
  | noNumber => "expected a number"
  | notDigit c => s!"expected a digit, found {quoteChar c}"
  | noAlternative count preview => s!"none of {count} alternatives matched {quote preview}"
  | stated _ message => message

def display (e : ParseError) : String := s!"{e.kind.display}: {e.message}"

end ParseError

end TextGrammar
