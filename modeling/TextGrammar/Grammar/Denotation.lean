import TextGrammar.Grammar.Basic

/-!
# The parser of a grammar

Each grammar denotes a parser. Loops that may go on for ever and references to rules are given an
allowance: a loop is cut off after that many rounds and a reference at that depth. A run that ends
otherwise does not depend on the allowance.
-/

namespace TextGrammar

namespace Grammar

mutual

/-- The parser of a grammar, where `call` applies a rule. -/
def denote (rounds : Nat) (call : String → Parser Value) : Grammar → Parser Value
  | leaf scanner => .ofScanner scanner
  | map f g => (denote rounds call g).map f
  | bind g f => (denote rounds call g).bind fun value => denote rounds call (f value)
  | peek g => (denote rounds call g).peek
  | orElse first others => (denote rounds call first).orElse (denoteAll rounds call others)
  | nearest alternatives => .nearest (denoteAll rounds call alternatives)
  | seq parts => (Parser.seq (denoteAll rounds call parts)).map .list
  | pipe parts => (Parser.pipe (denoteAll rounds call parts)).map .list
  | repeated g bounds => ((denote rounds call g).repeated bounds).map .list
  | manyUntil g stop =>
    ((denote rounds call g).manyUntil (denote rounds call stop) rounds).map .list
  | sepBy g separator =>
    ((denote rounds call g).sepBy (denote rounds call separator) rounds).map .list
  | optional g => (denote rounds call g).optional.map .option
  | ignore g => (denote rounds call g).ignore.map fun _ => .unit
  | followedBy g next => (denote rounds call g).followedBy (denote rounds call next)
  | before g marker => (denote rounds call g).before (denote rounds call marker)
  | trace label g => (denote rounds call g).trace label
  | fields fs => (Parser.fields (denoteFields rounds call fs)).map .record
  | rule name => call name
  | immediate g | shared g => denote rounds call g
  | block steps finish => Block.parser ⟨denoteSteps rounds call 0 steps, finish⟩
  | procedure next =>
    Procedure.interpret
      { start := []
        resume := fun received value => do
          let received := received ++ value.toList
          Run.note (.resumed (value.map Value.toText))
          return (received, denoteStep rounds call (next received)) }
      rounds

def denoteAll (rounds : Nat) (call : String → Parser Value) : List Grammar → List (Parser Value)
  | [] => []
  | g :: gs => denote rounds call g :: denoteAll rounds call gs

def denoteFields (rounds : Nat) (call : String → Parser Value) :
    List (Field Grammar Grammar) → List (Field (Parser Value) (Parser Unit))
  | [] => []
  | f :: fs => denoteField rounds call f :: denoteFields rounds call fs

def denoteField (rounds : Nat) (call : String → Parser Value) :
    Field Grammar Grammar → Field (Parser Value) (Parser Unit)
  | .keep key g => .keep key (denote rounds call g)
  | .skip g => .skip (denote rounds call g).ignore

/-- The steps of a block, numbered from `index`. Asking a step for its parser is logged. -/
def denoteSteps (rounds : Nat) (call : String → Parser Value) (index : Nat) :
    List (List Value → Grammar) → List (List Value → Run (Parser Value))
  | [] => []
  | step :: steps =>
    (fun bound => do
      Run.note (.stepAsked index bound.length)
      return denote rounds call (step bound)) :: denoteSteps rounds call (index + 1) steps

def denoteStep (rounds : Nat) (call : String → Parser Value) :
    Step Grammar Value → Step (Parser Value) Value
  | .yield g => .yield (denote rounds call g)
  | .done value => .done value

end

end Grammar

namespace Rules

/-- Builds the rule of that name and applies it, to a depth of `depth` references. -/
def call (rules : Rules) : (depth : Nat) → String → Parser Value
  | 0, _, _ => Run.cutOff
  | depth + 1, name, input => do
    Run.note (.ruleBuilt name)
    (rules name).denote depth (call rules depth) input

end Rules

namespace Grammar

/-- The parser of a grammar within an allowance of rounds and depth. -/
def parserWithin (rules : Rules) (allowance : Nat) (g : Grammar) : Parser Value :=
  g.denote allowance (rules.call allowance)

/-- More than any run of practical length uses up. -/
def allowance : Nat := 0x4000000000000000

def parser (rules : Rules) (g : Grammar) : Parser Value := g.parserWithin rules allowance

end Grammar

end TextGrammar
