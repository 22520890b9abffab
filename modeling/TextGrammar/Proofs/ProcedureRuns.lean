import Mathlib.Data.List.Basic
import TextGrammar.Parser.Procedure
import TextGrammar.Proofs.Ends

/-!
# Runs of procedures

A run of a procedure takes turns: the procedure is resumed with the value found last, at first with
none, and the parser it asks for is applied to the text left last. The run is over when the
procedure is done or a parser fails, and depends on nothing else that the procedure would answer.
Turns are counted: the first one that cannot be counted any more is the last one of the run.
-/

namespace TextGrammar

namespace Procedure

variable {σ ν ω : Type}

/-- The procedure is resumed in `state` with `received`, and `asked` is applied to `text`. -/
structure Turn (σ ν : Type) where
  state : σ
  received : Option ν
  text : Text
  asked : Parser ν

variable (procedure : Procedure σ ν ω)

/-- The turns on the input, in each of which the parser has succeeded, and what the next turn
starts with: the state, the value to resume with, and the text left. -/
inductive Reached (input : Text) : List (Turn σ ν) → σ → Option ν → Text → Prop
  | start : Reached input [] procedure.start none input
  | next {turns : List (Turn σ ν)} {state state' : σ} {value : Option ν} {s t : Text}
    {asked : Parser ν} {found : ν} : Reached input turns state value s →
    (procedure.resume state value).ending = .returns (state', .yield asked) →
    (asked s).ending = .returns (.success found t) → turns.length + 1 < countLimit →
    Reached input (turns ++ [⟨state, value, s, asked⟩]) state' (some found) t

def turnsLog (turns : List (Turn σ ν)) : List Event :=
  turns.flatMap fun turn =>
    (procedure.resume turn.state turn.received).log ++ (turn.asked turn.text).log

/-- The runs that return an outcome, by their turns and the state and value of the last resumption.
The procedure is done and leaves what the last parser left; or the parser it asks for fails, and its
error is logged once more and returned. -/
inductive Transcript (input : Text) (turns : List (Turn σ ν)) (state : σ) (value : Option ν) :
    List Event → Outcome ω → Prop
  | done {state' : σ} {s : Text} {output : ω} : procedure.Reached input turns state value s →
    (procedure.resume state value).ending = .returns (state', .done output) →
    Transcript input turns state value
      (procedure.turnsLog turns ++ (procedure.resume state value).log) (.success output s)
  | failed {state' : σ} {s : Text} {asked : Parser ν} {error : ParseError} :
    procedure.Reached input turns state value s →
    (procedure.resume state value).ending = .returns (state', .yield asked) →
    (asked s).ending = .returns (.failure error) →
    Transcript input turns state value
      (procedure.turnsLog turns ++ ((procedure.resume state value).log ++ (asked s).log) ++
        [.abandoned turns.length error])
      (.failure error)

variable {procedure} {input s t : Text} {turns : List (Turn σ ν)} {state state' : σ}
  {value : Option ν} {rounds steps : Nat} {asked : Parser ν} {log : List Event} {o : Outcome ω}

/-! ## One turn -/

theorem proceed_of_done {output : ω}
    (h : (procedure.resume state value).ending = .returns (state', .done output)) :
    procedure.proceed (rounds + 1) steps state value s =
      ⟨(procedure.resume state value).log, .returns (.success output s)⟩ := by
  rw [proceed_succ, Run.bind_eq_of_returns _ h]
  change Run.mk (_ ++ []) _ = _
  rw [List.append_nil]
  rfl

theorem proceed_of_failure {error : ParseError}
    (h : (procedure.resume state value).ending = .returns (state', .yield asked))
    (ha : (asked s).ending = .returns (.failure error)) :
    procedure.proceed (rounds + 1) steps state value s =
      ⟨(procedure.resume state value).log ++ ((asked s).log ++ [.abandoned steps error]),
        .returns (.failure error)⟩ := by
  rw [proceed_succ, Run.bind_eq_of_returns _ h]
  dsimp only
  rw [Run.bind_eq_of_returns _ ha]
  rfl

theorem proceed_of_success {found : ν}
    (h : (procedure.resume state value).ending = .returns (state', .yield asked))
    (ha : (asked s).ending = .returns (.success found t)) (hcount : steps + 1 < countLimit) :
    procedure.proceed (rounds + 1) steps state value s =
      ⟨(procedure.resume state value).log ++ ((asked s).log ++
          (procedure.proceed rounds (steps + 1) state' (some found) t).log),
        (procedure.proceed rounds (steps + 1) state' (some found) t).ending⟩ := by
  rw [proceed_succ, Run.bind_eq_of_returns _ h]
  dsimp only
  rw [Run.bind_eq_of_returns _ ha]
  dsimp only
  rw [countUp_of_lt hcount, LawfulMonad.pure_bind]

theorem proceed_of_overflow {found : ν}
    (h : (procedure.resume state value).ending = .returns (state', .yield asked))
    (ha : (asked s).ending = .returns (.success found t)) (hcount : countLimit ≤ steps + 1) :
    procedure.proceed (rounds + 1) steps state value s =
      ⟨(procedure.resume state value).log ++ (asked s).log, .faults .countOverflow⟩ := by
  rw [proceed_succ, Run.bind_eq_of_returns _ h]
  dsimp only
  rw [Run.bind_eq_of_returns _ ha]
  dsimp only
  rw [countUp_of_le hcount]
  change Run.mk (_ ++ (_ ++ [])) (.faults .countOverflow) = _
  rw [List.append_nil]

theorem cases_of_proceed_returns
    (h : (procedure.proceed rounds steps state value s).ending = .returns o) :
    ∃ left state', rounds = left + 1 ∧
      ((∃ output, (procedure.resume state value).ending = .returns (state', .done output)) ∨
        ∃ asked, (procedure.resume state value).ending = .returns (state', .yield asked) ∧
          ((∃ error, (asked s).ending = .returns (.failure error)) ∨
            steps + 1 < countLimit ∧
              ∃ found t, (asked s).ending = .returns (.success found t))) := by
  cases rounds with
  | zero => cases h
  | succ left =>
    rw [proceed_succ, Run.ending_bind_eq_returns_iff] at h
    obtain ⟨⟨state', step⟩, hstep, h⟩ := h
    refine ⟨left, state', rfl, ?_⟩
    cases step with
    | done output => exact Or.inl ⟨output, hstep⟩
    | yield asked =>
      dsimp only at h
      obtain ⟨found, hfound, h⟩ := Run.ending_bind_eq_returns_iff.1 h
      refine Or.inr ⟨asked, hstep, ?_⟩
      cases found with
      | success found t =>
        refine Or.inr ⟨?_, found, t, hfound⟩
        by_contra hcount
        rw [countUp_of_le (Nat.not_lt.1 hcount)] at h
        cases h
      | failure error => exact Or.inl ⟨error, hfound⟩

/-! ## All turns -/

theorem turnsLog_append_singleton (turns : List (Turn σ ν)) (turn : Turn σ ν) :
    procedure.turnsLog (turns ++ [turn]) = procedure.turnsLog turns ++
      ((procedure.resume turn.state turn.received).log ++ (turn.asked turn.text).log) := by
  rw [turnsLog, List.flatMap_append, List.flatMap_singleton]
  rfl

/-- Turns that have been reached begin the run, whatever comes behind them. -/
theorem Reached.interpret_eq (h : procedure.Reached input turns state value s) (rounds : Nat) :
    procedure.interpret (turns.length + rounds) input =
      ⟨procedure.turnsLog turns ++
          (procedure.proceed rounds turns.length state value s).log,
        (procedure.proceed rounds turns.length state value s).ending⟩ := by
  induction h generalizing rounds with
  | start => rw [List.length_nil, Nat.zero_add]; rfl
  | next _ hresume hasked hcount ih =>
    rw [List.length_append, List.length_singleton, Nat.add_assoc, Nat.add_comm 1 rounds, ih,
      proceed_of_success hresume hasked hcount, turnsLog_append_singleton]
    simp only [List.append_assoc]

theorem Transcript.interpret_eq (h : procedure.Transcript input turns state value log o)
    (hrounds : turns.length < rounds) : procedure.interpret rounds input = ⟨log, .returns o⟩ := by
  obtain ⟨left, rfl⟩ := Nat.exists_eq_add_of_lt hrounds
  cases h with
  | done h hresume => rw [Nat.add_assoc, h.interpret_eq, proceed_of_done hresume]
  | failed h hresume hasked =>
    rw [Nat.add_assoc, h.interpret_eq, proceed_of_failure hresume hasked]
    simp only [List.append_assoc]

theorem Reached.interpret_of_overflow {found : ν} (h : procedure.Reached input turns state value s)
    (hresume : (procedure.resume state value).ending = .returns (state', .yield asked))
    (hasked : (asked s).ending = .returns (.success found t))
    (hcount : countLimit ≤ turns.length + 1) (hrounds : turns.length < rounds) :
    procedure.interpret rounds input =
      ⟨procedure.turnsLog turns ++ ((procedure.resume state value).log ++ (asked s).log),
        .faults .countOverflow⟩ := by
  obtain ⟨left, rfl⟩ := Nat.exists_eq_add_of_lt hrounds
  rw [Nat.add_assoc, h.interpret_eq, proceed_of_overflow hresume hasked hcount]

theorem Reached.exists_transcript (h : procedure.Reached input turns state value s)
    (ho : (procedure.proceed rounds turns.length state value s).ending = .returns o) :
    ∃ turns' state' value' log, turns'.length < turns.length + rounds ∧
      procedure.Transcript input turns' state' value' log o := by
  induction rounds generalizing turns state value s with
  | zero => cases ho
  | succ rounds ih =>
    obtain ⟨_, state', heq, hcases⟩ := cases_of_proceed_returns ho
    cases heq
    rcases hcases with ⟨output, hresume⟩ |
      ⟨asked, hresume, ⟨error, hasked⟩ | ⟨hcount, found, t, hasked⟩⟩
    · rw [proceed_of_done hresume] at ho
      cases ho
      exact ⟨turns, state, value, _, by omega, .done h hresume⟩
    · rw [proceed_of_failure hresume hasked] at ho
      cases ho
      exact ⟨turns, state, value, _, by omega, .failed h hresume hasked⟩
    · rw [proceed_of_success hresume hasked hcount] at ho
      have hlength : ∀ turn : Turn σ ν, (turns ++ [turn]).length = turns.length + 1 := by
        intro turn
        rw [List.length_append, List.length_singleton]
      rw [← hlength ⟨state, value, s, asked⟩] at ho
      obtain ⟨turns', state', value', log, hlt, htranscript⟩ := ih (h.next hresume hasked hcount) ho
      rw [hlength] at hlt
      exact ⟨turns', state', value', log, by omega, htranscript⟩

theorem interpret_eq_iff :
    procedure.interpret rounds input = ⟨log, .returns o⟩ ↔
      ∃ turns state value, turns.length < rounds ∧
        procedure.Transcript input turns state value log o := by
  constructor
  · intro h
    have ho : (procedure.interpret rounds input).ending = .returns o := congrArg Run.ending h
    obtain ⟨turns, state, value, log', hlt, htranscript⟩ :=
      Reached.exists_transcript Reached.start ho
    rw [List.length_nil, Nat.zero_add] at hlt
    have hlog : log' = log :=
      congrArg Run.log ((htranscript.interpret_eq hlt).symm.trans h)
    exact ⟨turns, state, value, hlt, hlog ▸ htranscript⟩
  · rintro ⟨turns, state, value, hlt, h⟩
    exact h.interpret_eq hlt

/-! ## What the run depends on -/

section Congruence

variable {other : Procedure σ ν ω}

theorem turnsLog_congr (hturns : ∀ turn ∈ turns,
    other.resume turn.state turn.received = procedure.resume turn.state turn.received) :
    other.turnsLog turns = procedure.turnsLog turns :=
  List.flatMap_congr fun turn hmem => by rw [hturns turn hmem]

theorem Reached.congr (h : procedure.Reached input turns state value s)
    (hstart : other.start = procedure.start) (hturns : ∀ turn ∈ turns,
      other.resume turn.state turn.received = procedure.resume turn.state turn.received) :
    other.Reached input turns state value s := by
  induction h with
  | start =>
    rw [← hstart]
    exact .start
  | next _ hresume hasked hcount ih =>
    obtain ⟨hfirst, hlast⟩ := List.forall_mem_append.1 hturns
    refine .next (ih hfirst) ?_ hasked hcount
    rw [hlast _ (List.mem_singleton_self _), hresume]

/-- A procedure that answers alike in the turns and in the last resumption runs alike. -/
theorem Transcript.congr (h : procedure.Transcript input turns state value log o)
    (hstart : other.start = procedure.start) (hturns : ∀ turn ∈ turns,
      other.resume turn.state turn.received = procedure.resume turn.state turn.received)
    (hlast : other.resume state value = procedure.resume state value) :
    other.Transcript input turns state value log o := by
  cases h with
  | done h hresume =>
    rw [← turnsLog_congr hturns, ← hlast]
    exact .done (h.congr hstart hturns) (hlast ▸ hresume)
  | failed h hresume hasked =>
    rw [← turnsLog_congr hturns, ← hlast]
    exact .failed (h.congr hstart hturns) (hlast ▸ hresume) hasked

end Congruence

/-! ## How often it is resumed -/

section Noting

def notedParser (e : Event) (p : Parser ν) : Parser ν := fun s => do
  Run.note e
  p s

def notedStep (e : Event) : Step (Parser ν) ω → Step (Parser ν) ω
  | .yield asked => .yield (notedParser e asked)
  | .done output => .done output

def notedTurn (e : Event) (turn : Turn σ ν) : Turn σ ν :=
  { turn with asked := notedParser e turn.asked }

/-- Notes `a` whenever the procedure is resumed, and `b` whenever a parser it asks for is
applied. -/
def noting (procedure : Procedure σ ν ω) (a b : Event) : Procedure σ ν ω where
  start := procedure.start
  resume state value := do
    Run.note a
    let (state, step) ← procedure.resume state value
    return (state, notedStep b step)

/-- How many parsers have been applied when the run with these turns returns. -/
def applications (turns : List (Turn σ ν)) : Outcome ω → Nat
  | .success _ _ => turns.length
  | .failure _ => turns.length + 1

variable {a b : Event}

theorem notedParser_eq : notedParser b asked s = ⟨b :: (asked s).log, (asked s).ending⟩ :=
  Run.bind_eq_of_returns _ rfl

theorem noting_resume_log :
    ((procedure.noting a b).resume state value).log =
      a :: (procedure.resume state value).log := by
  have hnote : (procedure.noting a b).resume state value = _ := Run.bind_eq_of_returns _ rfl
  rw [hnote]
  change a :: (procedure.resume state value >>= _).log = _
  cases h : (procedure.resume state value).ending with
  | returns next =>
    rw [Run.bind_eq_of_returns _ h]
    exact congrArg (a :: ·) (List.append_nil _)
  | faults fault => rw [Run.bind_eq_of_faults _ h]
  | unfinished => rw [Run.bind_eq_of_unfinished _ h]

theorem noting_resume_ending {step : Step (Parser ν) ω}
    (h : (procedure.resume state value).ending = .returns (state', step)) :
    ((procedure.noting a b).resume state value).ending = .returns (state', notedStep b step) := by
  have hnote : (procedure.noting a b).resume state value = _ := Run.bind_eq_of_returns _ rfl
  rw [hnote]
  exact Run.ending_bind_eq_returns_iff.2 ⟨_, h, rfl⟩

theorem perm_turnsLog_noting (procedure : Procedure σ ν ω) (a b : Event)
    (turns : List (Turn σ ν)) :
    ((procedure.noting a b).turnsLog (turns.map (notedTurn b))).Perm
      (procedure.turnsLog turns ++
        (List.replicate turns.length a ++ List.replicate turns.length b)) := by
  rw [List.perm_iff_count]
  intro e
  induction turns with
  | nil => rfl
  | cons turn turns ih =>
    simp only [turnsLog, List.map_cons, List.flatMap_cons, notedTurn, noting_resume_log,
      notedParser_eq, List.length_cons, List.replicate_succ, List.count_append,
      List.count_cons] at ih ⊢
    omega

theorem Reached.noting (h : procedure.Reached input turns state value s) :
    (procedure.noting a b).Reached input (turns.map (notedTurn b)) state value s := by
  induction h with
  | start => exact .start
  | next _ hresume hasked hcount ih =>
    rw [List.map_append]
    refine .next ih (noting_resume_ending hresume) ?_ ?_
    · rw [notedParser_eq]
      exact hasked
    · rwa [List.length_map]

theorem Transcript.exists_noting (h : procedure.Transcript input turns state value log o)
    (a b : Event) :
    ∃ log', (procedure.noting a b).Transcript input (turns.map (notedTurn b)) state value log' o ∧
      log'.Perm (log ++ (List.replicate (turns.length + 1) a ++
        List.replicate (applications turns o) b)) := by
  cases h with
  | done h hresume =>
    refine ⟨_, .done h.noting (noting_resume_ending hresume), ?_⟩
    rw [List.perm_iff_count]
    intro e
    have hturns := (perm_turnsLog_noting procedure a b turns).count_eq e
    simp only [noting_resume_log, applications, List.replicate_succ, List.count_append,
      List.count_cons] at hturns ⊢
    omega
  | failed h hresume hasked =>
    refine ⟨_, .failed h.noting (noting_resume_ending hresume) ?_, ?_⟩
    · rw [notedParser_eq]
      exact hasked
    · rw [List.perm_iff_count]
      intro e
      have hturns := (perm_turnsLog_noting procedure a b turns).count_eq e
      simp only [noting_resume_log, notedParser_eq, applications, List.length_map,
        List.replicate_succ, List.count_append, List.count_cons] at hturns ⊢
      omega

end Noting

theorem Reached.length_lt (h : procedure.Reached input turns state value s) :
    turns.length < countLimit := by
  cases h with
  | start =>
    have hpos : 0 < countLimit := by decide
    exact hpos
  | next _ _ _ hcount =>
    rw [List.length_append, List.length_singleton]
    exact hcount

theorem Transcript.log_of_failure {error : ParseError}
    (h : procedure.Transcript input turns state value log (.failure error)) :
    turns.length < countLimit ∧ ∃ first, log = first ++ [.abandoned turns.length error] := by
  cases h with
  | failed h _ _ => exact ⟨h.length_lt, _, rfl⟩

theorem line_abandoned (steps : Nat) (error : ParseError) :
    (Event.abandoned steps error).line =
      "TRACE do-block failed after " ++ toString steps ++ " steps: " ++ error.display := by
  change "TRACE" ++ " " ++
    ("do-block failed after " ++ toString steps ++ " steps: " ++ error.display) = _
  simp only [← String.append_assoc]
  rfl

/-- The interpreter returns exactly the transcripts of the procedure. In each of them the procedure
is resumed once a turn and once more, and every parser it asks for is applied once; it could answer
anything to any other resumption. Where a parser fails, the last line tells the number of turns. The
turn that would make this number too large for its word stops the interpreter. -/
theorem interpret_resumes_in_turns (procedure : Procedure σ ν ω) (input : Text) :
    (∀ rounds log o, procedure.interpret rounds input = ⟨log, .returns o⟩ ↔
      ∃ turns state value, turns.length < rounds ∧
        procedure.Transcript input turns state value log o) ∧
    (∀ turns state value log o, procedure.Transcript input turns state value log o →
      (∀ error, o = .failure error →
        turns.length < countLimit ∧ (∃ first, log = first ++ [.abandoned turns.length error]) ∧
        (Event.abandoned turns.length error).line = "TRACE do-block failed after " ++
          toString turns.length ++ " steps: " ++ error.display) ∧
      ∀ rounds, turns.length < rounds →
        (∀ a b, ∃ log', (procedure.noting a b).interpret rounds input = ⟨log', .returns o⟩ ∧
          log'.Perm (log ++ (List.replicate (turns.length + 1) a ++
            List.replicate (applications turns o) b))) ∧
        ∀ other : Procedure σ ν ω, other.start = procedure.start →
          (∀ turn ∈ turns, other.resume turn.state turn.received =
            procedure.resume turn.state turn.received) →
          other.resume state value = procedure.resume state value →
            other.interpret rounds input = ⟨log, .returns o⟩) ∧
    ∀ turns state value s state' asked found t, procedure.Reached input turns state value s →
      (procedure.resume state value).ending = .returns (state', .yield asked) →
      (asked s).ending = .returns (.success found t) → countLimit ≤ turns.length + 1 →
      ∀ rounds, turns.length < rounds → procedure.interpret rounds input =
        ⟨procedure.turnsLog turns ++ ((procedure.resume state value).log ++ (asked s).log),
          .faults .countOverflow⟩ := by
  refine ⟨fun rounds log o => interpret_eq_iff, ?_, ?_⟩
  · intro turns state value log o h
    constructor
    · rintro error rfl
      obtain ⟨hlength, hlog⟩ := h.log_of_failure
      exact ⟨hlength, hlog, line_abandoned _ _⟩
    · intro rounds hrounds
      constructor
      · intro a b
        obtain ⟨log', hnoting, hperm⟩ := h.exists_noting a b
        rw [← List.length_map (notedTurn b)] at hrounds
        exact ⟨log', hnoting.interpret_eq hrounds, hperm⟩
      · intro other hstart hturns hlast
        exact (h.congr hstart hturns hlast).interpret_eq hrounds
  · intro turns state value s state' asked found t h hresume hasked hcount rounds hrounds
    exact h.interpret_of_overflow hresume hasked hcount hrounds

def twoVowels : Procedure Text Char Text where
  start := []
  resume bound value := do
    let bound := bound ++ value.toList
    return (bound, if bound.length = 2 then .done bound else .yield (.ofScanner .vowel))

/-- With two vowels the procedure is done. Where the second one is missing, it has been resumed
twice, and the second of the two parsers it asked for has failed. -/
theorem twoVowels_resumes_in_turns :
    twoVowels.interpret 3 ['a', 'e', 'b'] = ⟨[], .returns (.success ['a', 'e'] ['b'])⟩ ∧
      ∃ log', (twoVowels.noting (.resumed none) (.inputRead 0)).interpret 3 ['a', 'b'] =
          ⟨log', .returns (.failure (.failure "not a vowel"))⟩ ∧
        log'.Perm ([.abandoned 1 (.failure "not a vowel")] ++
          (List.replicate 2 (.resumed none) ++ List.replicate 2 (.inputRead 0))) := by
  constructor
  · have hnone : twoVowels.Reached ['a', 'e', 'b'] [] [] none ['a', 'e', 'b'] := .start
    have hboth := (hnone.next rfl rfl (by decide)).next rfl rfl (by decide)
    exact ((interpret_resumes_in_turns twoVowels _).1 3 _ _).2 ⟨_, _, _, by decide, .done hboth rfl⟩
  · have hnone : twoVowels.Reached ['a', 'b'] [] [] none ['a', 'b'] := .start
    have hfailed := Transcript.failed (hnone.next rfl rfl (by decide)) rfl rfl
    exact (((interpret_resumes_in_turns twoVowels _).2.1 _ _ _ _ _ hfailed).2 3 (by decide)).1 _ _

end Procedure

end TextGrammar
