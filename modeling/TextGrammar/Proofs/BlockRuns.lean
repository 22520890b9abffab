import TextGrammar.Parser.Procedure
import TextGrammar.Proofs.Ends

/-!
# Runs of blocks

A run of a block goes through the steps in order: each is asked once, with the values found by all
the steps before it, and only where these have succeeded. The block depends on nothing else that its
steps would answer. The steps that succeed are counted, and the first one that cannot be counted any
more stops the run.
-/

namespace TextGrammar.Block

open Procedure

variable {ν ω : Type}

def ask (step : List ν → Run (Parser ν)) (bound : List ν) : Parser ν := fun s => do
  (← step bound) s

/-- What the block does after the values in `bound`. -/
def parserFrom (block : Block ν ω) (bound : List ν) : Parser ω :=
  block.procedure.proceed (block.steps.length + 1 - bound.length) bound.length bound none

/-- What the block does when the step that was asked with `bound` has ended. -/
def goOn (block : Block ν ω) (bound : List ν) : Outcome ν → Run (Outcome ω)
  | .success value rest => do
    let _ ← countUp bound.length
    block.parserFrom (bound ++ [value]) rest
  | .failure error => do
    Run.note (.abandoned bound.length error)
    pure (.failure error)

variable (block : Block ν ω) {bound : List ν} {s : Text}

theorem resume_of_step {step : List ν → Run (Parser ν)}
    (h : block.steps[bound.length]? = some step) :
    block.procedure.resume bound none = do return (bound, .yield (← step bound)) := by
  unfold procedure
  dsimp only
  rw [Option.toList_none, List.append_nil, h]

theorem resume_of_length_eq (h : bound.length = block.steps.length) :
    block.procedure.resume bound none = pure (bound, .done (block.finish bound)) := by
  unfold procedure
  dsimp only
  rw [Option.toList_none, List.append_nil, List.getElem?_eq_none (by omega)]

theorem resume_some (bound : List ν) (value : ν) :
    block.procedure.resume bound (some value) =
      block.procedure.resume (bound ++ [value]) none := by
  unfold procedure
  dsimp only
  rw [Option.toList_some, Option.toList_none, List.append_nil]

theorem proceed_some (rounds steps : Nat) (bound : List ν) (value : ν) (s : Text) :
    block.procedure.proceed rounds steps bound (some value) s =
      block.procedure.proceed rounds steps (bound ++ [value]) none s := by
  cases rounds with
  | zero => rfl
  | succ rounds => rw [proceed_succ, proceed_succ, resume_some]

theorem parserFrom_of_length_eq (h : bound.length = block.steps.length) :
    block.parserFrom bound s = pure (.success (block.finish bound) s) := by
  have hrounds : block.steps.length + 1 - bound.length = 0 + 1 := by omega
  unfold parserFrom
  rw [hrounds, proceed_succ, block.resume_of_length_eq h, LawfulMonad.pure_bind]

theorem parserFrom_of_step {step : List ν → Run (Parser ν)}
    (h : block.steps[bound.length]? = some step) :
    block.parserFrom bound s = ask step bound s >>= block.goOn bound := by
  obtain ⟨hlt, _⟩ := List.getElem?_eq_some_iff.1 h
  have hrounds : block.steps.length + 1 - bound.length =
      (block.steps.length - bound.length) + 1 := by omega
  unfold parserFrom ask
  rw [hrounds, proceed_succ, block.resume_of_step h, bind_assoc, bind_assoc]
  congr 1
  funext p
  rw [LawfulMonad.pure_bind]
  -- What is left is how the two go on from the outcome of the step's parser.
  change p s >>= _ = p s >>= _
  congr 1
  funext o
  cases o with
  | success value rest =>
    have hleft : block.steps.length + 1 - (bound ++ [value]).length =
        block.steps.length - bound.length := by
      rw [List.length_append, List.length_singleton]
      omega
    dsimp only [goOn, parserFrom]
    rcases Nat.lt_or_ge (bound.length + 1) countLimit with hcount | hcount
    · rw [countUp_of_lt hcount, LawfulMonad.pure_bind, LawfulMonad.pure_bind, proceed_some, hleft,
        List.length_append, List.length_singleton]
    · rw [countUp_of_le hcount]
      rfl
  | failure error => rfl

/-- The first steps have been asked in order, each with the values found before it, and have found
the values in `bound` and left `s` of the input. The log is theirs, one after the other. -/
inductive Reached (input : Text) : List ν → Text → List Event → Prop
  | start : Reached input [] input []
  | next {bound : List ν} {s t : Text} {log : List Event} {step : List ν → Run (Parser ν)}
    {value : ν} : Reached input bound s log → block.steps[bound.length]? = some step →
    (ask step bound s).ending = .returns (.success value t) → bound.length + 1 < countLimit →
    Reached input (bound ++ [value]) t (log ++ (ask step bound s).log)

/-- The runs of a block. All steps succeed and the values are finished; or a step fails, and after
it nothing is done but to log the failure; or a step is stopped by a fault or by its allowance; or
one more step succeeds than are counted. -/
inductive Transcript (input : Text) : Run (Outcome ω) → Prop
  | finished {bound : List ν} {s : Text} {log : List Event} : block.Reached input bound s log →
    bound.length = block.steps.length →
    Transcript input ⟨log, .returns (.success (block.finish bound) s)⟩
  | failed {bound : List ν} {s : Text} {log : List Event} {step : List ν → Run (Parser ν)}
    {error : ParseError} : block.Reached input bound s log →
    block.steps[bound.length]? = some step →
    (ask step bound s).ending = .returns (.failure error) →
    Transcript input ⟨log ++ (ask step bound s).log ++ [.abandoned bound.length error],
      .returns (.failure error)⟩
  | faulted {bound : List ν} {s : Text} {log : List Event} {step : List ν → Run (Parser ν)}
    {fault : Fault} : block.Reached input bound s log →
    block.steps[bound.length]? = some step → (ask step bound s).ending = .faults fault →
    Transcript input ⟨log ++ (ask step bound s).log, .faults fault⟩
  | cutOff {bound : List ν} {s : Text} {log : List Event} {step : List ν → Run (Parser ν)} :
    block.Reached input bound s log → block.steps[bound.length]? = some step →
    (ask step bound s).ending = .unfinished →
    Transcript input ⟨log ++ (ask step bound s).log, .unfinished⟩
  | overflowed {bound : List ν} {s t : Text} {log : List Event} {step : List ν → Run (Parser ν)}
    {value : ν} : block.Reached input bound s log → block.steps[bound.length]? = some step →
    (ask step bound s).ending = .returns (.success value t) → countLimit ≤ bound.length + 1 →
    Transcript input ⟨log ++ (ask step bound s).log, .faults .countOverflow⟩

variable {block} {input : Text} {log : List Event}

theorem Reached.length_le (h : block.Reached input bound s log) :
    bound.length ≤ block.steps.length := by
  cases h with
  | start => exact Nat.zero_le _
  | next _ hstep _ _ =>
    obtain ⟨hlt, _⟩ := List.getElem?_eq_some_iff.1 hstep
    rw [List.length_append, List.length_singleton]
    omega

theorem parserFrom_of_success {step : List ν → Run (Parser ν)} {value : ν} {t : Text}
    (hstep : block.steps[bound.length]? = some step)
    (hx : (ask step bound s).ending = .returns (.success value t))
    (hcount : bound.length + 1 < countLimit) :
    block.parserFrom bound s =
      ⟨(ask step bound s).log ++ (block.parserFrom (bound ++ [value]) t).log,
        (block.parserFrom (bound ++ [value]) t).ending⟩ := by
  rw [block.parserFrom_of_step hstep, Run.bind_eq_of_returns _ hx, goOn, countUp_of_lt hcount,
    LawfulMonad.pure_bind]

theorem parserFrom_of_overflow {step : List ν → Run (Parser ν)} {value : ν} {t : Text}
    (hstep : block.steps[bound.length]? = some step)
    (hx : (ask step bound s).ending = .returns (.success value t))
    (hcount : countLimit ≤ bound.length + 1) :
    block.parserFrom bound s = ⟨(ask step bound s).log, .faults .countOverflow⟩ := by
  rw [block.parserFrom_of_step hstep, Run.bind_eq_of_returns _ hx, goOn, countUp_of_le hcount]
  exact congrArg (Run.mk · _) (List.append_nil _)

theorem Reached.parser_eq (h : block.Reached input bound s log) :
    block.parser input =
      ⟨log ++ (block.parserFrom bound s).log, (block.parserFrom bound s).ending⟩ := by
  induction h with
  | start => rfl
  | next _ hstep hx hcount ih =>
    rw [ih, parserFrom_of_success hstep hx hcount, List.append_assoc]

theorem Reached.transcript (h : block.Reached input bound s log) :
    block.Transcript input
      ⟨log ++ (block.parserFrom bound s).log, (block.parserFrom bound s).ending⟩ := by
  generalize hleft : block.steps.length - bound.length = left
  induction left generalizing bound s log with
  | zero =>
    have hlen : bound.length = block.steps.length := by
      have hle := h.length_le
      omega
    rw [block.parserFrom_of_length_eq hlen]
    have ht := Transcript.finished h hlen
    rwa [← List.append_nil log] at ht
  | succ left ih =>
    obtain ⟨step, hstep⟩ : ∃ step, block.steps[bound.length]? = some step :=
      ⟨_, List.getElem?_eq_getElem (by omega)⟩
    cases hx : (ask step bound s).ending with
    | returns o =>
      cases o with
      | success value t =>
        rcases Nat.lt_or_ge (bound.length + 1) countLimit with hcount | hcount
        · rw [parserFrom_of_success hstep hx hcount, ← List.append_assoc]
          apply ih (h.next hstep hx hcount)
          rw [List.length_append, List.length_singleton]
          omega
        · rw [parserFrom_of_overflow hstep hx hcount]
          exact .overflowed h hstep hx hcount
      | failure error =>
        rw [block.parserFrom_of_step hstep, Run.bind_eq_of_returns _ hx, ← List.append_assoc]
        exact .failed h hstep hx
    | faults fault =>
      rw [block.parserFrom_of_step hstep, Run.bind_eq_of_faults _ hx]
      exact .faulted h hstep hx
    | unfinished =>
      rw [block.parserFrom_of_step hstep, Run.bind_eq_of_unfinished _ hx]
      exact .cutOff h hstep hx

theorem transcript_iff {x : Run (Outcome ω)} :
    block.Transcript input x ↔ block.parser input = x := by
  constructor
  · intro h
    cases h with
    | finished h hlen =>
      rw [h.parser_eq, block.parserFrom_of_length_eq hlen]
      change Run.mk (_ ++ []) _ = _
      rw [List.append_nil]
      rfl
    | failed h hstep hx =>
      rw [h.parser_eq, block.parserFrom_of_step hstep, Run.bind_eq_of_returns _ hx,
        List.append_assoc]
      rfl
    | faulted h hstep hx =>
      rw [h.parser_eq, block.parserFrom_of_step hstep, Run.bind_eq_of_faults _ hx]
    | cutOff h hstep hx =>
      rw [h.parser_eq, block.parserFrom_of_step hstep, Run.bind_eq_of_unfinished _ hx]
    | overflowed h hstep hx hcount => rw [h.parser_eq, parserFrom_of_overflow hstep hx hcount]
  · rintro rfl
    exact Reached.transcript .start

/-- Wherever the run of a block on `input` has got to, another block asks for the same, and it
finishes the same values alike. -/
structure AsksAlike (block other : Block ν ω) (input : Text) : Prop where
  length : other.steps.length = block.steps.length
  steps : ∀ bound s log, block.Reached input bound s log →
    other.steps[bound.length]?.map (· bound) = block.steps[bound.length]?.map (· bound)
  finish : ∀ bound s log, block.Reached input bound s log →
    bound.length = block.steps.length → other.finish bound = block.finish bound

namespace AsksAlike

variable {other : Block ν ω}

theorem ask_eq (ha : AsksAlike block other input) {step : List ν → Run (Parser ν)}
    (h : block.Reached input bound s log) (hstep : block.steps[bound.length]? = some step) :
    ∃ step', other.steps[bound.length]? = some step' ∧ ask step' bound = ask step bound := by
  have hmap := ha.steps bound s log h
  rw [hstep, Option.map_some] at hmap
  obtain ⟨step', hstep', he⟩ := Option.map_eq_some_iff.1 hmap
  refine ⟨step', hstep', ?_⟩
  unfold ask
  rw [he]

theorem reached (ha : AsksAlike block other input) (h : block.Reached input bound s log) :
    other.Reached input bound s log := by
  induction h with
  | start => exact .start
  | next h hstep hx hcount ih =>
    obtain ⟨step', hstep', he⟩ := ha.ask_eq h hstep
    rw [← he] at hx ⊢
    exact ih.next hstep' hx hcount

theorem transcript (ha : AsksAlike block other input) {x : Run (Outcome ω)}
    (h : block.Transcript input x) : other.Transcript input x := by
  cases h with
  | finished h hlast =>
    have hother := ha.length
    rw [← ha.finish _ _ _ h hlast]
    exact .finished (ha.reached h) (by omega)
  | failed h hstep hx =>
    obtain ⟨step', hstep', he⟩ := ha.ask_eq h hstep
    rw [← he] at hx ⊢
    exact .failed (ha.reached h) hstep' hx
  | faulted h hstep hx =>
    obtain ⟨step', hstep', he⟩ := ha.ask_eq h hstep
    rw [← he] at hx ⊢
    exact .faulted (ha.reached h) hstep' hx
  | cutOff h hstep hx =>
    obtain ⟨step', hstep', he⟩ := ha.ask_eq h hstep
    rw [← he] at hx ⊢
    exact .cutOff (ha.reached h) hstep' hx
  | overflowed h hstep hx hcount =>
    obtain ⟨step', hstep', he⟩ := ha.ask_eq h hstep
    rw [← he] at hx ⊢
    exact .overflowed (ha.reached h) hstep' hx hcount

theorem parser_eq (ha : AsksAlike block other input) : other.parser input = block.parser input :=
  transcript_iff.1 (ha.transcript (transcript_iff.2 rfl))

end AsksAlike

end TextGrammar.Block
