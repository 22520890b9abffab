import TextGrammar.Error

/-!
# Runs

A run logs events in order and ends in one of three ways: it returns a value, it stops at a fault
of the grammar, or it is cut off because its allowance of rounds is used up. What follows a fault
or a cut is not done, and the events logged before remain.
-/

namespace TextGrammar

/-- A mistake of the grammar, not of the text: bounds of a repetition in the wrong order, a span
that would end inside a character, remaining text longer than the input it remains of, and a
procedure with more steps than its interpreter can count. -/
inductive Fault where
  | invertedBounds (least most : Nat)
  | splitCharacter
  | grownRest
  | countOverflow
  deriving DecidableEq

inductive Event where
  | entered (label : String) (preview : Text)
  | consumed (label : String) (bytes : Nat) (preview : Text)
  | failed (label : String) (error : ParseError)
  | abandoned (steps : Nat) (error : ParseError)
  | rejected (error : ParseError)
  | inputRead (bytes : Nat)
  | ruleBuilt (name : String)
  | stepAsked (index bound : Nat)
  | resumed (value : Option Text)
  deriving DecidableEq

namespace Event

inductive Level where
  | trace
  | debug
  | info
  deriving DecidableEq

def Level.display : Level → String
  | trace => "TRACE"
  | debug => "DEBUG"
  | info => "INFO"

def level : Event → Level
  | entered .. | consumed .. | failed .. | abandoned .. => .trace
  | rejected _ | inputRead _ => .debug
  | ruleBuilt _ | stepAsked .. | resumed _ => .info

open Text in
def message : Event → String
  | entered label preview => s!"{label}: input {quote preview}"
  | consumed label bytes preview =>
    s!"{label}: consumed {bytes} bytes, remaining {quote preview}"
  | failed label error => s!"{label}: {error.display}"
  | abandoned steps error => s!"do-block failed after {steps} steps: {error.display}"
  | rejected error => s!"parse failed: {error.display}"
  | inputRead bytes => s!"read {bytes} bytes of input"
  | ruleBuilt name => s!"build {name}"
  | stepAsked index bound => s!"step {index} after {bound}"
  | resumed none => "resume"
  | resumed (some value) => s!"resume with {String.ofList value}"

def line (e : Event) : String := s!"{e.level.display} {e.message}"

end Event

inductive Ending (α : Type) where
  | returns (value : α)
  | faults (fault : Fault)
  | unfinished
  deriving DecidableEq

structure Run (α : Type) where
  log : List Event
  ending : Ending α
  deriving DecidableEq

namespace Run

variable {α β γ : Type}

protected def pure (a : α) : Run α := ⟨[], .returns a⟩

/-- One log after the other. A log that nothing follows is not copied. -/
def joinLogs : List Event → List Event → List Event
  | [], later => later
  | e :: first, [] => e :: first
  | e :: first, later => e :: (first ++ later)

@[simp] theorem joinLogs_eq (first later : List Event) : joinLogs first later = first ++ later := by
  cases first with
  | nil => rfl
  | cons e first => cases later <;> simp [joinLogs]

protected def bind (x : Run α) (f : α → Run β) : Run β :=
  match x.ending with
  | .returns a =>
    let y := f a
    ⟨joinLogs x.log y.log, y.ending⟩
  | .faults fault => ⟨x.log, .faults fault⟩
  | .unfinished => ⟨x.log, .unfinished⟩

instance : Monad Run where
  pure := Run.pure
  bind := Run.bind

def note (e : Event) : Run Unit := ⟨[e], .returns ()⟩

def fault (f : Fault) : Run α := ⟨[], .faults f⟩

def cutOff : Run α := ⟨[], .unfinished⟩

theorem pure_bind (a : α) (f : α → Run β) : Run.bind (Run.pure a) f = f a := rfl

theorem bind_pure (x : Run α) : Run.bind x Run.pure = x := by
  obtain ⟨log, ending⟩ := x
  cases ending <;> simp [Run.bind, Run.pure]

theorem bind_assoc (x : Run α) (f : α → Run β) (g : β → Run γ) :
    Run.bind (Run.bind x f) g = Run.bind x fun a => Run.bind (f a) g := by
  obtain ⟨log, ending⟩ := x
  cases ending with
  | returns a =>
    simp only [Run.bind, joinLogs_eq]
    cases (f a).ending <;> simp
  | faults _ => rfl
  | unfinished => rfl

instance : LawfulMonad Run :=
  LawfulMonad.mk' Run bind_pure pure_bind bind_assoc

end Run

end TextGrammar
