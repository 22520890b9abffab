import TextGrammar.Number
import TextGrammar.Outcome

/-!
# Scanners

A scanner looks at the text once, without calling another parser, and leaves a suffix of it. The
scanners here are the leaves of every grammar.
-/

namespace TextGrammar

structure Scanner (α : Type) where
  scan : Text → Outcome α
  rest_suffix : ∀ {input : Text} {value : α} {rest : Text},
    scan input = .success value rest → rest <:+ input

namespace Scanner

open Text

variable {α β : Type}

def map (f : α → β) (s : Scanner α) : Scanner β where
  scan input := (s.scan input).map f
  rest_suffix h :=
    have ⟨_, h', _⟩ := Outcome.map_eq_success h
    s.rest_suffix h'

def always (value : α) : Scanner α where
  scan input := .success value input
  rest_suffix h := (Outcome.success.inj h).2 ▸ List.suffix_refl _

def fail (error : ParseError) : Scanner α where
  scan _ := .failure error
  rest_suffix h := by contradiction

def never (message : String) : Scanner α := fail (.failure message)

/-- Consumes one character that is accepted; any other, and the end of the text, is refused. -/
def char (accept : Char → Bool) (refusal : Option Char → ParseError) : Scanner Char where
  scan
    | [] => .failure (refusal none)
    | c :: rest => if accept c then .success c rest else .failure (refusal (some c))
  rest_suffix {input _ _} h := by
    cases input with
    | nil => contradiction
    | cons c s =>
      dsimp only at h
      split at h
      · obtain ⟨_, rfl⟩ := Outcome.success.inj h
        exact List.suffix_cons ..
      · contradiction

def anyChar : Scanner Char := char (fun _ => true) fun _ => .noCharacter

def whitespaceChar : Scanner Char := char isSpace .notBlank

def whitespace : Scanner Unit where
  scan input := .success () (input.dropWhile isSpace)
  rest_suffix h := (Outcome.success.inj h).2 ▸ List.dropWhile_suffix _

def literal (s : Text) : Scanner Text where
  scan input :=
    match dropStart? s input with
    | some rest => .success s rest
    | none => .failure (.unequal s (input.take s.length) (preview input))
  rest_suffix h := by
    split at h
    · next hd =>
      obtain ⟨_, rfl⟩ := Outcome.success.inj h
      exact ⟨s, (dropStart?_eq_some_iff.1 hd).symm⟩
    · contradiction

/-- Consumes one character where the text does not begin with `s`. -/
def notLiteral (s : Text) : Scanner Char where
  scan input :=
    match dropStart? s input with
    | some _ => .failure (.excluded s)
    | none => anyChar.scan input
  rest_suffix h := by
    split at h
    · contradiction
    · exact anyChar.rest_suffix h

def take (n : Nat) : Scanner Text where
  scan input :=
    match splitChars? n input with
    | some (taken, rest) => .success taken rest
    | none => .failure (.tooShort n input.length)
  rest_suffix h := by
    split at h
    · next hs =>
      obtain ⟨_, rfl⟩ := Outcome.success.inj h
      exact ⟨_, (splitChars?_eq_some hs).symm⟩
    · contradiction

/-- Skips the first occurrence of `needle` and returns the text before it. -/
def searchFor (needle : Text) : Scanner Text where
  scan input :=
    match splitAtFirst? needle input with
    | some (before, after) => .success before after
    | none => .failure (.absent needle (preview input))
  rest_suffix h := by
    split at h
    · next hs =>
      obtain ⟨_, rfl⟩ := Outcome.success.inj h
      exact ⟨_, (splitAtFirst?_eq_some hs).symm⟩
    · contradiction

def breakToEnd : Scanner Text where
  scan input := .success input []
  rest_suffix h := (Outcome.success.inj h).2 ▸ List.nil_suffix

def endOfInput : Scanner Unit where
  scan
    | [] => .success () []
    | input => .failure (.trailing input.length (preview input))
  rest_suffix {input _ _} h := by
    cases input with
    | nil => exact (Outcome.success.inj h).2 ▸ List.suffix_refl _
    | cons => contradiction

def isNumeric (c : Char) : Bool := c.isDigit || c == '.'

/-- Consumes a run of digits and points that begins with a digit. -/
def numberLiteral : Scanner Number where
  scan
    | [] => .failure .noNumber
    | c :: s =>
      if c.isDigit then
        .success (Number.ofNumeral ((c :: s).takeWhile isNumeric)) ((c :: s).dropWhile isNumeric)
      else .failure (.notDigit c)
  rest_suffix {input _ _} h := by
    cases input with
    | nil => contradiction
    | cons c s =>
      dsimp only at h
      split at h
      · obtain ⟨_, rfl⟩ := Outcome.success.inj h
        exact List.dropWhile_suffix _
      · contradiction

def here : Scanner Text where
  scan input := .success input input
  rest_suffix h := (Outcome.success.inj h).2 ▸ List.suffix_refl _

def vowel : Scanner Char :=
  char (['a', 'e', 'i', 'o', 'u'].contains ·) fun _ => .failure "not a vowel"

def gOrH : Scanner Char :=
  char (['g', 'h'].contains ·) fun
    | none => .noCharacter
    | some c => .failure s!"{quoteChar c} is neither g nor h"

end Scanner

end TextGrammar
