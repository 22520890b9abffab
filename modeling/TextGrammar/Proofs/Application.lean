import Mathlib.Logic.Relation
import TextGrammar.Proofs.Induction

/-!
# Which grammars are applied to which texts

Applying a grammar to a text applies its parts to texts that earlier parts have left, and their
parts in turn. The relation follows what the parser of a grammar does step by step: a part counts as
applied only where the parser gets to it, on the text it has by then, and a grammar chosen by a
function only for the values that were found.
-/

namespace TextGrammar.Grammar

open Procedure

variable (rules : Rules)

def Returns (g : Grammar) (s : Text) (o : Outcome Value) : Prop :=
  ∃ n, (g.parserWithin rules n s).ending = .returns o

def Leaves (g : Grammar) (s t : Text) : Prop := ∃ value, g.Returns rules s (.success value t)

def Refuses (g : Grammar) (s : Text) : Prop := ∃ error, g.Returns rules s (.failure error)

def blockAsks (steps : List (List Value → Grammar)) (bound : List Value) : Option Grammar :=
  steps[bound.length]?.map (· bound)

def procedureAsks (next : List Value → Step Grammar Value) (received : List Value) :
    Option Grammar :=
  match next received with
  | .yield g => some g
  | .done _ => none

/-- The grammars asked for, each applied to what the one before it left of `s`, have found these
values and left this text. -/
inductive Received (asks : List Value → Option Grammar) (s : Text) : List Value → Text → Prop
  | start : Received asks s [] s
  | next {received : List Value} {t u : Text} {g : Grammar} {value : Value} :
    Received asks s received t → asks received = some g → g.Returns rules t (.success value u) →
    received.length + 1 < countLimit → Received asks s (received ++ [value]) u

/-- Applying the first grammar to the first text applies the second to the second, as one of its
parts. -/
inductive Applies : Grammar × Text → Grammar × Text → Prop
  | map {f g s} : Applies (map f g, s) (g, s)
  | bind {g f s} : Applies (bind g f, s) (g, s)
  | bound {g f s value t} : g.Returns rules s (.success value t) →
    Applies (bind g f, s) (f value, t)
  | peek {g s} : Applies (peek g, s) (g, s)
  | first {first others s} : Applies (orElse first others, s) (first, s)
  | other {first second others s a} : first.Refuses rules s →
    Applies (orElse second others, s) a → Applies (orElse first (second :: others), s) a
  | nearest {g gs s} : Applies (nearest (g :: gs), s) (g, s)
  | nearestOther {g gs s o a} : g.Returns rules s o → Applies (nearest gs, s) a →
    Applies (nearest (g :: gs), s) a
  | pipe {g gs s} : Applies (pipe (g :: gs), s) (g, s)
  | pipeOther {g gs s t a} : g.Leaves rules s t → Applies (pipe gs, t) a →
    Applies (pipe (g :: gs), s) a
  | seqOther {g gs s a} : Applies (seq gs, s) a → Applies (seq (g :: gs), s) a
  | seq {g gs s t} : (seq gs).Leaves rules s t → Applies (seq (g :: gs), s) (g, t)
  | repeated {g bounds s} : bounds.least ≤ bounds.most → 0 < bounds.most →
    Applies (repeated g bounds, s) (g, s)
  | repeatedAgain {g bounds s t a} : bounds.least ≤ bounds.most → 0 < bounds.most →
    g.Leaves rules s t →
    Applies (repeated g (.between (bounds.least - 1) (bounds.most - 1)), t) a →
    Applies (repeated g bounds, s) a
  | stop {g stop s} : Applies (manyUntil g stop, s) (stop, s)
  | manyUntil {g stop s} : stop.Refuses rules s → Applies (manyUntil g stop, s) (g, s)
  | manyUntilAgain {g stop s t a} : stop.Refuses rules s → g.Leaves rules s t →
    Applies (manyUntil g stop, t) a → Applies (manyUntil g stop, s) a
  | sepBy {g separator s} : Applies (sepBy g separator, s) (g, s)
  | separator {g separator s t} : g.Leaves rules s t →
    Applies (sepBy g separator, s) (separator, t)
  | sepByAgain {g separator s t u a} : g.Leaves rules s t → separator.Leaves rules t u →
    Applies (sepBy g separator, u) a → Applies (sepBy g separator, s) a
  | optional {g s} : Applies (optional g, s) (g, s)
  | ignore {g s} : Applies (ignore g, s) (g, s)
  | followedBy {g next s} : Applies (followedBy g next, s) (g, s)
  | following {g next s t} : g.Leaves rules s t → Applies (followedBy g next, s) (next, t)
  | marker {g marker s} : Applies (before g marker, s) (marker, s)
  | before {g marker s after part} : marker.Leaves rules s after →
    Parser.span s after = pure part → Applies (before g marker, s) (g, part)
  | trace {label g s} : Applies (trace label g, s) (g, s)
  | field {f fs s} : Applies (fields (f :: fs), s) (f.content, s)
  | fieldOther {f fs s t a} : f.content.Leaves rules s t → Applies (fields fs, t) a →
    Applies (fields (f :: fs), s) a
  | rule {name s} : Applies (rule name, s) (rules name, s)
  | immediate {g s} : Applies (immediate g, s) (g, s)
  | shared {g s} : Applies (shared g, s) (g, s)
  | step {steps finish s bound t g} : Received rules (blockAsks steps) s bound t →
    blockAsks steps bound = some g → Applies (block steps finish, s) (g, t)
  | asked {next s received t g} : Received rules (procedureAsks next) s received t →
    procedureAsks next received = some g → Applies (procedure next, s) (g, t)

/-- A block or a procedure is applied to the text, and one more value is found for it than are
counted. -/
inductive Overflows : Grammar × Text → Prop
  | block {steps finish s bound t u g} : Received rules (blockAsks steps) s bound t →
    blockAsks steps bound = some g → g.Leaves rules t u → countLimit ≤ bound.length + 1 →
    Overflows (block steps finish, s)
  | procedure {next s received t u g} : Received rules (procedureAsks next) s received t →
    procedureAsks next received = some g → g.Leaves rules t u → countLimit ≤ received.length + 1 →
    Overflows (procedure next, s)

/-- Applying the first grammar to the first text comes to apply the second to the second, at
whatever depth. The first application counts itself. -/
abbrev Applied : Grammar × Text → Grammar × Text → Prop := Relation.ReflTransGen (Applies rules)

variable {rules}

theorem Applied.of_applies {a b d : Grammar × Text} (h : Applies rules a b)
    (hb : Applied rules b d) : Applied rules a d := Relation.ReflTransGen.head h hb

theorem forall_applied_of_applies {P : Grammar × Text → Prop} {a b : Grammar × Text}
    (h : ∀ d, Applied rules a d → P d) (hab : Applies rules a b) : ∀ d, Applied rules b d → P d :=
  fun d hd => h d (Applied.of_applies hab hd)

theorem forall_applied_of_closed {S : Grammar → Prop} {g : Grammar} {s : Text} (hg : S g)
    (hS : ∀ g s a, S g → Applies rules (g, s) a → S a.1) :
    ∀ b, Applied rules (g, s) b → S b.1 := by
  intro b hb
  induction hb with
  | refl => exact hg
  | tail _ hab ih => exact hS _ _ _ ih hab

theorem eq_of_applies_repeated {g : Grammar} {bounds : Bounds} {s : Text} {a : Grammar × Text}
    (h : Applies rules (repeated g bounds, s) a) : a.1 = g := by
  generalize hb : (repeated g bounds, s) = b at h
  induction h generalizing bounds s with
  | repeated _ _ =>
    cases hb
    rfl
  | repeatedAgain _ _ _ _ ih =>
    cases hb
    exact ih rfl
  | _ => cases hb

def noRules : Rules := fun name => never name

end TextGrammar.Grammar
