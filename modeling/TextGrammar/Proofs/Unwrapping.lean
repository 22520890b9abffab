import TextGrammar.Proofs.Induction
import TextGrammar.Proofs.Simulation

/-!
# Removing wrappers and references

Traces and other wrappers around the parts of a grammar may be removed, and references to rules may
be replaced by the grammars of those rules. An edit is a grammar before and after this. It has a
third version whose log tells which lines are due to what has been removed: there every trace and
every reference bears a name with a mark.
-/

namespace TextGrammar

namespace Mark

def on (removed : Bool) (name : String) : String :=
  String.ofList ((if removed then '-' else '+') :: name.toList)

def off (name : String) : String := String.ofList name.toList.tail

def isRemoved (name : String) : Bool := name.toList.head? == some '-'

@[simp] theorem off_on (removed : Bool) (name : String) : off (on removed name) = name := by
  simp [off, on]

@[simp] theorem isRemoved_on (removed : Bool) (name : String) :
    isRemoved (on removed name) = removed := by
  cases removed <;> simp [isRemoved, on]

end Mark

namespace Event

def rename (f : String → String) : Event → Event
  | entered label preview => entered (f label) preview
  | consumed label bytes preview => consumed (f label) bytes preview
  | failed label error => failed (f label) error
  | ruleBuilt name => ruleBuilt (f name)
  | e => e

/-- The event is about a trace or a reference that is removed. -/
def isRemoved (e : Event) : Bool := e.name?.any Mark.isRemoved

theorem rename_entered (f : String → String) (label : String) (preview : Text) :
    (entered label preview).rename f = entered (f label) preview := rfl

theorem rename_ruleBuilt (f : String → String) (name : String) :
    (ruleBuilt name).rename f = ruleBuilt (f name) := rfl

theorem rename_of_unnamed {e : Event} (f : String → String) (h : e.name? = none) :
    e.rename f = e := by
  cases e with
  | entered | consumed | failed | ruleBuilt => cases h
  | _ => rfl

end Event

inductive Version where
  | marked
  | before
  | after

namespace Version

/-- The log of a version, by that of the marked one. -/
def lines : Version → List Event → List Event
  | marked, log => log
  | before, log => log.map (Event.rename Mark.off)
  | after, log => (log.filter fun e => !e.isRemoved).map (Event.rename Mark.off)

variable (v w : Version)

@[simp] theorem lines_nil : v.lines [] = [] := by cases v <;> rfl

theorem lines_append (log later : List Event) :
    v.lines (log ++ later) = v.lines log ++ v.lines later := by
  cases v <;> simp [lines]

theorem lines_of_unnamed {e : Event} (h : e.name? = none) : v.lines [e] = [e] := by
  cases v <;> simp [lines, e.rename_of_unnamed _ h, Event.isRemoved, h]

theorem lines_before (e : Event) : before.lines [e] = [e.rename Mark.off] := rfl

theorem lines_after_of_removed {e : Event} {name : String}
    (h : e.name? = some (Mark.on true name)) : after.lines [e] = [] := by
  simp [lines, Event.isRemoved, h]

theorem lines_after_of_kept {e : Event} {name : String}
    (h : e.name? = some (Mark.on false name)) : after.lines [e] = [e.rename Mark.off] := by
  simp [lines, Event.isRemoved, h]

/-- Both logs are those of one marked log. -/
def alike : LogRelation where
  Holds l m := ∃ log, l = v.lines log ∧ m = w.lines log
  nil := ⟨[], v.lines_nil.symm, w.lines_nil.symm⟩
  append := by
    rintro _ _ _ _ ⟨log, rfl, rfl⟩ ⟨later, rfl, rfl⟩
    exact ⟨log ++ later, (v.lines_append log later).symm, (w.lines_append log later).symm⟩
  unnamed {e} h := ⟨[e], (v.lines_of_unnamed h).symm, (w.lines_of_unnamed h).symm⟩

theorem alike_lines (log : List Event) : (v.alike w).Holds (v.lines log) (w.lines log) :=
  ⟨log, rfl, rfl⟩

end Version

abbrev Edit := Version → Grammar

def Field.version (v : Version) : Field Edit Edit → Field Grammar Grammar
  | .keep key e => .keep key (e v)
  | .skip e => .skip (e v)

def Step.version (v : Version) : Step Edit Value → Step Grammar Value
  | .yield e => .yield (e v)
  | .done value => .done value

namespace Edit

def traced (removed : Bool) (label : String) (e : Edit) : Edit
  | .marked => .trace (Mark.on removed label) (e .marked)
  | .before => .trace label (e .before)
  | .after => if removed then e .after else .trace label (e .after)

def wrapped (wrapper : Grammar → Grammar) (removed : Bool) (e : Edit) : Edit
  | .marked => wrapper (e .marked)
  | .before => wrapper (e .before)
  | .after => if removed then e .after else wrapper (e .after)

def referred (name : String) : Edit
  | .marked => .rule (Mark.on false name)
  | .before | .after => .rule name

/-- A reference to a rule with the grammar `e`. In the marked version the rule of the marked name
only tells that it is built, and what replaces it follows. -/
def unfolded (name : String) (e : Edit) : Edit
  | .marked => .followedBy (.rule (Mark.on true name)) (e .marked)
  | .before => .rule name
  | .after => e .after

end Edit

/-- The edits that remove any of the wrappers in a grammar and unfold any of its references, where
the rules are edited too. A reference is replaced by what its rule was before, edited in its own
way, so a rule may be unfolded again inside itself. -/
inductive Unwraps (body : String → Edit) : Edit → Prop
  | leaf (scanner : Scanner Value) : Unwraps body fun _ => .leaf scanner
  | map (f : Value → Value) {e : Edit} : Unwraps body e → Unwraps body fun v => .map f (e v)
  | bind {e : Edit} {f : Value → Edit} : Unwraps body e → (∀ value, Unwraps body (f value)) →
    Unwraps body fun v => .bind (e v) fun value => f value v
  | peek {e : Edit} : Unwraps body e → Unwraps body fun v => .peek (e v)
  | orElse {first : Edit} {others : List Edit} : Unwraps body first →
    (∀ e ∈ others, Unwraps body e) →
    Unwraps body fun v => .orElse (first v) (others.map (· v))
  | nearest {alternatives : List Edit} : (∀ e ∈ alternatives, Unwraps body e) →
    Unwraps body fun v => .nearest (alternatives.map (· v))
  | seq {parts : List Edit} : (∀ e ∈ parts, Unwraps body e) →
    Unwraps body fun v => .seq (parts.map (· v))
  | pipe {parts : List Edit} : (∀ e ∈ parts, Unwraps body e) →
    Unwraps body fun v => .pipe (parts.map (· v))
  | repeated {e : Edit} (bounds : Bounds) : Unwraps body e →
    Unwraps body fun v => .repeated (e v) bounds
  | manyUntil {e stop : Edit} : Unwraps body e → Unwraps body stop →
    Unwraps body fun v => .manyUntil (e v) (stop v)
  | sepBy {e separator : Edit} : Unwraps body e → Unwraps body separator →
    Unwraps body fun v => .sepBy (e v) (separator v)
  | optional {e : Edit} : Unwraps body e → Unwraps body fun v => .optional (e v)
  | ignore {e : Edit} : Unwraps body e → Unwraps body fun v => .ignore (e v)
  | followedBy {e next : Edit} : Unwraps body e → Unwraps body next →
    Unwraps body fun v => .followedBy (e v) (next v)
  | before {e marker : Edit} : Unwraps body e → Unwraps body marker →
    Unwraps body fun v => .before (e v) (marker v)
  | fields {fs : List (Field Edit Edit)} : (∀ f ∈ fs, Unwraps body f.content) →
    Unwraps body fun v => .fields (fs.map (Field.version v))
  | block {steps : List (List Value → Edit)} (finish : List Value → Value) :
    (∀ step ∈ steps, ∀ bound, Unwraps body (step bound)) →
    Unwraps body fun v => .block (steps.map fun step bound => step bound v) finish
  | procedure {next : List Value → Step Edit Value} :
    (∀ received e, next received = .yield e → Unwraps body e) →
    Unwraps body fun v => .procedure fun received => (next received).version v
  | trace (removed : Bool) (label : String) {e : Edit} : Unwraps body e →
    Unwraps body (e.traced removed label)
  | immediate (removed : Bool) {e : Edit} : Unwraps body e →
    Unwraps body (e.wrapped .immediate removed)
  | shared (removed : Bool) {e : Edit} : Unwraps body e → Unwraps body (e.wrapped .shared removed)
  | rule (name : String) : Unwraps body (.referred name)
  | unfolded {name : String} {e : Edit} : Unwraps body e → e .before = body name .before →
    Unwraps body (e.unfolded name)

/-- The rules that the references of a version mean. -/
def Version.rules (body : String → Edit) : Version → Rules
  | .marked => fun name =>
    if Mark.isRemoved name then Grammar.always .unit else body (Mark.off name) .marked
  | .before => fun name => body name .before
  | .after => fun name => body name .after

end TextGrammar
