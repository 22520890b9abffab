import TextGrammar.Parser.Procedure
import TextGrammar.Parser.Repetition
import TextGrammar.Parser.Several
import TextGrammar.Value

/-!
# Grammars

Parsers written as data. A grammar may refer to rules by name, and it may choose how to go on by
the values found before: such a choice is a function into grammars.
-/

namespace TextGrammar

inductive Grammar where
  | leaf (scanner : Scanner Value)
  | map (f : Value → Value) (g : Grammar)
  | bind (g : Grammar) (f : Value → Grammar)
  | peek (g : Grammar)
  | orElse (first : Grammar) (others : List Grammar)
  | nearest (alternatives : List Grammar)
  | seq (parts : List Grammar)
  | pipe (parts : List Grammar)
  | repeated (g : Grammar) (bounds : Bounds)
  | manyUntil (g stop : Grammar)
  | sepBy (g separator : Grammar)
  | optional (g : Grammar)
  | ignore (g : Grammar)
  | followedBy (g next : Grammar)
  | before (g marker : Grammar)
  | trace (label : String) (g : Grammar)
  | fields (fs : List (Field Grammar Grammar))
  /-- The rule of that name, built anew each time it is applied. -/
  | rule (name : String)
  /-- A rule given in place. -/
  | immediate (g : Grammar)
  /-- A grammar that several others may hold. -/
  | shared (g : Grammar)
  | block (steps : List (List Value → Grammar)) (finish : List Value → Value)
  /-- A procedure, given by what it does after each list of values it was resumed with. -/
  | procedure (next : List Value → Step Grammar Value)

namespace Grammar

def literal (s : Text) : Grammar := leaf ((Scanner.literal s).map .text)

def notLiteral (s : Text) : Grammar := leaf ((Scanner.notLiteral s).map .char)

def searchFor (needle : Text) : Grammar := leaf ((Scanner.searchFor needle).map .text)

def anyChar : Grammar := leaf (Scanner.anyChar.map .char)

def whitespaceChar : Grammar := leaf (Scanner.whitespaceChar.map .char)

def whitespace : Grammar := leaf (Scanner.whitespace.map fun _ => .unit)

def take (n : Nat) : Grammar := leaf ((Scanner.take n).map .text)

def breakToEnd : Grammar := leaf (Scanner.breakToEnd.map .text)

def endOfInput : Grammar := leaf (Scanner.endOfInput.map fun _ => .unit)

def numberLiteral : Grammar := leaf (Scanner.numberLiteral.map .number)

def always (value : Value) : Grammar := leaf (Scanner.always value)

def never (message : String) : Grammar := leaf (Scanner.never message)

def vowel : Grammar := leaf (Scanner.vowel.map .char)

def gOrH : Grammar := leaf (Scanner.gOrH.map .char)

def here : Grammar := leaf (Scanner.here.map .text)

def many (g : Grammar) : Grammar := repeated g .any

end Grammar

abbrev Rules := String → Grammar

end TextGrammar
