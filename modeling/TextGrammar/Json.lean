import TextGrammar.Grammar.Denotation

/-!
# JSON

A grammar for JSON documents of booleans, strings, unsigned numbers, lists and objects. A string
knows one escape, a backslash before a quote, and keeps the backslash. Blank characters may stand
around the items and keys inside brackets, not before a value at the top.
-/

namespace TextGrammar.Json

open Grammar

def boolean : Grammar :=
  map (fun v => .bool (v.toText == ['t', 'r', 'u', 'e']))
    (orElse (literal ['t', 'r', 'u', 'e']) [literal ['f', 'a', 'l', 's', 'e']])

def second (v : Value) : Value := .text (v.item 1).toText

def string : Grammar :=
  map second
    (pipe [literal ['"'], many (orElse (literal ['\\', '"']) [notLiteral ['"']]), literal ['"']])

/-- A value of any kind, with blank characters around it. -/
def element : Grammar := map (Value.item 1) (pipe [whitespace, rule "value", whitespace])

/-- Items with commas between them, inside two brackets. -/
def enclosed (first last : Char) (item : Grammar) : Grammar :=
  map (Value.item 2)
    (pipe [literal [first], whitespace, sepBy item (literal [',']), whitespace, literal [last]])

def list : Grammar := enclosed '[' ']' element

def keyName : Text := ['k', 'e', 'y']

def valueName : Text := ['v', 'a', 'l', 'u', 'e']

def pair : Grammar :=
  map (Value.fields [keyName, valueName])
    (fields [.skip whitespace, .keep keyName string, .skip whitespace, .skip (literal [':']),
      .keep valueName element])

/-- Of two pairs with the same key the later one counts. -/
def object : Grammar := map Value.toRecord (enclosed '\x7b' '\x7d' pair)

def value : Grammar := orElse boolean [string, numberLiteral, rule "list", rule "object"]

def rules : Rules
  | "value" => value
  | "list" => list
  | "object" => object
  | _ => never "no such rule"

def parser : Parser Value := value.parser rules

end TextGrammar.Json
