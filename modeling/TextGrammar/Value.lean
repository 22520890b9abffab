import TextGrammar.Number
import TextGrammar.Record

/-!
# Values

What a grammar finds in a text. The grammars of this library are written as data, so their values
have one type. A value that is asked for something it does not have answers with the unit value or
with an empty text.
-/

namespace TextGrammar

inductive Value where
  | unit
  | bool (b : Bool)
  | text (s : Text)
  | char (c : Char)
  | number (n : Number)
  | list (items : List Value)
  | option (item : Option Value)
  | record (entries : List (Text × Value))

namespace Value

mutual

/-- The text of a value: its characters and integers, in order, without anything between them. -/
def toText : Value → Text
  | text s => s
  | char c => [c]
  | number (.int i) => Text.ofInt i
  | list items => textOfAll items
  | option (some item) => toText item
  | unit | bool _ | number (.float _) | option none | record _ => []

def textOfAll : List Value → Text
  | [] => []
  | item :: items => toText item ++ textOfAll items

end

/-- The number that a value counts: an integer as a word, and otherwise the word that its text
reads as. What reads as none counts nothing. -/
def count : Value → Nat
  | number (.int i) => (i % Text.wordLimit).toNat
  | number (.float _) => 0
  | v => (Text.readWord? v.toText).getD 0

/-- A number for arithmetic; what is none counts as zero. -/
def toFloat : Value → Float
  | number n => n.toDouble.toFloat
  | _ => 0

def widen : Value → Value
  | number n => number (.float n.toDouble)
  | v => v

def items : Value → List Value
  | list items => items
  | _ => []

def item (i : Nat) (v : Value) : Value := v.items[i]?.getD unit

def pick (indices : List Nat) (v : Value) : Value := list (indices.map (item · v))

def last (v : Value) : Value := option v.items.getLast?

def length : Value → Nat
  | list items => items.length
  | record entries => entries.length
  | v => v.toText.length

def tagged (tag : Text) (v : Value) : Value := list [text tag, v]

/-- Removes the named entries from a record one after the other and returns what was there. A name
given twice finds nothing the second time. -/
def removeAll : List Text → Record Value → List Value
  | [], _ => []
  | key :: keys, entries => (entries.get? key).getD unit :: removeAll keys (entries.erase key)

def fields (keys : List Text) : Value → Value
  | record entries => list (removeAll keys entries)
  | _ => list (removeAll keys [])

/-- The record of the entries `[key, value]` of a list. -/
def toRecord (v : Value) : Value :=
  record (Record.ofList (v.items.map fun entry => ((entry.item 0).toText, entry.item 1)))

end Value

end TextGrammar
