import TextGrammar.Grammar.Basic

/-!
# Grammars that depend on values

Ways to go on from values that were found before: as the second half of a bind, as a step of a
block, or as a procedure. Procedures are told apart by what they ask for after the values they have
received.
-/

namespace TextGrammar.Grammar

def takeCounted (v : Value) : Grammar := take v.count

def repeatCounted (g : Grammar) (v : Value) : Grammar := repeated g (.between v.count v.count)

def choose (cases : List (Text × Grammar)) (otherwise : Grammar) (v : Value) : Grammar :=
  (cases.lookup v.toText).getD otherwise

/-- A number that is twice the value, compared as floating-point numbers. -/
def doubleOf (v : Value) : Grammar :=
  let wanted := v.toFloat * 2.0
  bind numberLiteral fun n => if n.toFloat == wanted then always n else never "not the double"

def onBound (index : Nat) (f : Value → Grammar) (bound : List Value) : Grammar :=
  match bound[index]? with
  | some v => f v
  | none => never "unbound"

/-! ## Procedures -/

def doneWith (value : Value) : Grammar := procedure fun _ => .done value

def word : Grammar :=
  followedBy whitespace
    (map (fun v => .text v.toText) (repeated (notLiteral [' ']) (.atLeast 1)))

def countedWords : Grammar :=
  procedure fun
    | [] => .yield (take 1)
    | wanted :: words =>
      if words.length = wanted.count then .done (.list words) else .yield word

/-- Asks for `g` until it finds a value with the text `stop`, and returns the values before. -/
def untilText (g : Grammar) (stop : Text) : Grammar :=
  procedure fun received =>
    match received.getLast? with
    | none => .yield g
    | some v => if v.toText = stop then .done (.list received.dropLast) else .yield g

def script (gs : List Grammar) : Grammar :=
  procedure fun received =>
    match gs[received.length]? with
    | some g => .yield g
    | none => .done (.list received)

/-- Counts and bodies by turns; a count of zero ends the list. -/
def nextCounted (bodies : List Value) : List Value → Step Grammar Value
  | [] => .yield (take 1)
  | [n] => if n.count = 0 then .done (.list bodies) else .yield (take n.count)
  | _ :: body :: received => nextCounted (bodies ++ [body]) received

/-- Bodies, each after a count of one character that tells its length. -/
def countedBodies : Grammar := procedure (nextCounted [])

end TextGrammar.Grammar
