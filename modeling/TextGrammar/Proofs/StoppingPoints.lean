import Mathlib.Order.Bounds.Basic
import TextGrammar.Proofs.Allowances
import TextGrammar.Proofs.Loops
import TextGrammar.Proofs.Sequences

/-!
# Loops with a terminator

A loop with a terminator stops at the first text, of those that its parser leaves one after the
other, where the terminator would succeed or the parser fails. Of the terminator only the verdict
matters. So the loop is the one without terminator over a parser that looks ahead and fails where
the terminator would succeed.
-/

namespace TextGrammar

namespace Parser

variable {α β γ : Type} {p : Parser α} {stop : Parser β} {refusal : ParseError} {s t : Text}
  {rounds : List (Text × α)}

def Accepts (p : Parser α) (s : Text) : Prop :=
  ∃ value t, (p s).ending = .returns (.success value t)

def Refuses (p : Parser α) (s : Text) : Prop :=
  ∃ error, (p s).ending = .returns (.failure error)

/-- Whether the parser succeeds, without what it finds and what it leaves. -/
def verdict (p : Parser α) (s : Text) : Run Bool := do
  match ← p s with
  | .success .. => return true
  | .failure _ => return false

/-- Fails where `stop` would succeed, and does what `p` does everywhere else. -/
def exceptWhere (p : Parser α) (stop : Parser β) (refusal : ParseError) : Parser α :=
  stop.peek.optional.bind fun found => if found.isSome then fail refusal else p

/-- The loop is over: `stop` would succeed, or it does not and `p` fails. -/
def Over (p : Parser α) (stop : Parser β) (s : Text) : Prop :=
  stop.Accepts s ∨ stop.Refuses s ∧ p.Refuses s

/-- The numbers of rounds of `p` after which `stop` would succeed or `p` fails. -/
def stops (p : Parser α) (stop : Parser β) (s : Text) : Set Nat :=
  {k | ∃ rounds t, Rounds p s rounds t ∧ rounds.length = k ∧ (stop.Accepts t ∨ p.Refuses t)}

theorem Refuses.not_accepts (h : p.Refuses s) : ¬ p.Accepts s := by
  obtain ⟨error, he⟩ := h
  rintro ⟨value, t, hs⟩
  cases he.symm.trans hs

/-! ## The terminator by its verdict -/

theorem verdict_peek (p : Parser α) (s : Text) : p.peek.verdict s = p.verdict s := by
  change (p s >>= _) >>= _ = p s >>= _
  rw [LawfulMonad.bind_assoc]
  refine congrArg (p s >>= ·) (funext fun o => ?_)
  cases o <;> rfl

theorem ending_verdict_eq_true_iff : (p.verdict s).ending = .returns true ↔ p.Accepts s := by
  unfold verdict Accepts
  rw [Run.ending_bind]
  cases (p s).ending with
  | returns o => cases o <;> simp
  | faults fault => simp
  | unfinished => simp

theorem ending_verdict_eq_false_iff : (p.verdict s).ending = .returns false ↔ p.Refuses s := by
  unfold verdict Refuses
  rw [Run.ending_bind]
  cases (p s).ending with
  | returns o => cases o <;> simp
  | faults fault => simp
  | unfinished => simp

theorem exceptWhere_eq (p : Parser α) (stop : Parser β) (refusal : ParseError) (s : Text) :
    p.exceptWhere stop refusal s = (do
      if ← stop.verdict s then pure (.failure refusal) else p s) := by
  change ((stop s >>= _) >>= _) >>= _ = (stop s >>= _) >>= _
  simp only [LawfulMonad.bind_assoc]
  refine congrArg (stop s >>= ·) (funext fun o => ?_)
  cases o <;> rfl

theorem manyUntil_succ_eq (p : Parser α) (stop : Parser β) (n : Nat) (s : Text) :
    p.manyUntil stop (n + 1) s = (do
      if ← stop.verdict s then pure (.success [] s)
      else
        match ← p s with
        | .success value t => return (← p.manyUntil stop n t).map (value :: ·)
        | .failure _ => pure (.success [] s)) := by
  rw [manyUntil_succ]
  change _ = (stop s >>= _) >>= _
  rw [LawfulMonad.bind_assoc]
  refine congrArg (stop s >>= ·) (funext fun o => ?_)
  cases o <;> rfl

theorem manyUntil_congr_verdict {other : Parser γ}
    (h : ∀ rounds t, Rounds p s rounds t → other.verdict t = stop.verdict t) (n : Nat) :
    p.manyUntil other n s = p.manyUntil stop n s := by
  induction n generalizing s with
  | zero => rfl
  | succ n ih =>
    rw [manyUntil_succ_eq, manyUntil_succ_eq, h [] s .nil]
    refine congrArg (stop.verdict s >>= ·) (funext fun ended => ?_)
    cases ended with
    | true => rfl
    | false =>
      simp only [Bool.false_eq_true, if_false]
      apply Run.bind_congr_of_returns
      intro o ho
      cases o with
      | failure error => rfl
      | success value t =>
        dsimp only
        rw [ih fun rounds u hrounds => h _ u (.cons ho hrounds)]

/-! ## The loop without terminator -/

theorem manyUntil_eq_untilFailure (p : Parser α) (stop : Parser β) (refusal : ParseError)
    (n : Nat) : p.manyUntil stop n = (p.exceptWhere stop refusal).untilFailure n := by
  induction n with
  | zero => rfl
  | succ n ih =>
    funext s
    rw [manyUntil_succ_eq, untilFailure_succ, exceptWhere_eq, LawfulMonad.bind_assoc, ih]
    refine congrArg (stop.verdict s >>= ·) (funext fun ended => ?_)
    cases ended with
    | true => rfl
    | false => rfl

theorem ending_exceptWhere_eq_success_iff {value : α} :
    (p.exceptWhere stop refusal s).ending = .returns (.success value t) ↔
      stop.Refuses s ∧ (p s).ending = .returns (.success value t) := by
  rw [exceptWhere_eq, Run.ending_bind_eq_returns_iff]
  constructor
  · rintro ⟨ended, hended, h⟩
    cases ended with
    | true => cases h
    | false => exact ⟨ending_verdict_eq_false_iff.1 hended, h⟩
  · rintro ⟨hstop, h⟩
    exact ⟨false, ending_verdict_eq_false_iff.2 hstop, h⟩

theorem refuses_exceptWhere_iff : (p.exceptWhere stop refusal).Refuses s ↔ p.Over stop s := by
  unfold Refuses
  simp only [exceptWhere_eq, Run.ending_bind_eq_returns_iff]
  constructor
  · rintro ⟨error, ended, hended, h⟩
    cases ended with
    | true => exact Or.inl (ending_verdict_eq_true_iff.1 hended)
    | false => exact Or.inr ⟨ending_verdict_eq_false_iff.1 hended, error, h⟩
  · rintro (hstop | ⟨hstop, error, h⟩)
    · exact ⟨refusal, true, ending_verdict_eq_true_iff.2 hstop, rfl⟩
    · exact ⟨error, false, ending_verdict_eq_false_iff.2 hstop, h⟩

theorem rounds_exceptWhere_iff : Rounds (p.exceptWhere stop refusal) s rounds t ↔
    Rounds p s rounds t ∧ ∀ round ∈ rounds, stop.Refuses round.1 := by
  constructor
  · intro h
    induction h with
    | nil => exact ⟨.nil, nofun⟩
    | cons hs _ ih =>
      obtain ⟨hstop, hp⟩ := ending_exceptWhere_eq_success_iff.1 hs
      exact ⟨.cons hp ih.1, List.forall_mem_cons.2 ⟨hstop, ih.2⟩⟩
  · rintro ⟨h, hstop⟩
    induction h with
    | nil => exact .nil
    | cons hs _ ih =>
      obtain ⟨hfirst, hothers⟩ := List.forall_mem_cons.1 hstop
      exact .cons (ending_exceptWhere_eq_success_iff.2 ⟨hfirst, hs⟩) (ih hothers)

/-! ## The first stopping point -/

theorem Rounds.length_le_of_mem_stops (h : Rounds p s rounds t)
    (hstop : ∀ round ∈ rounds, stop.Refuses round.1) {k : Nat} (hk : k ∈ stops p stop s) :
    rounds.length ≤ k := by
  obtain ⟨earlier, u, hearlier, rfl, hu⟩ := hk
  induction h generalizing earlier with
  | nil => exact Nat.zero_le _
  | cons hs _ ih =>
    obtain ⟨hfirst, hothers⟩ := List.forall_mem_cons.1 hstop
    cases hearlier with
    | nil =>
      rcases hu with hu | hu
      · exact absurd hu hfirst.not_accepts
      · exact absurd ⟨_, _, hs⟩ hu.not_accepts
    | cons hs' hearlier =>
      cases hs.symm.trans hs'
      exact Nat.succ_le_succ (ih hothers _ hearlier)

theorem exists_ending_manyUntil_iff {o : Outcome (List α)} :
    (∃ n, (p.manyUntil stop n s).ending = .returns o) ↔
      ∃ rounds t, Rounds p s rounds t ∧ (∀ round ∈ rounds, stop.Refuses round.1) ∧
        p.Over stop t ∧ o = .success (rounds.map Prod.snd) t := by
  -- Any error will do for the parser that looks ahead, as the loop drops it.
  simp only [manyUntil_eq_untilFailure p stop .noCharacter, ending_untilFailure_eq_returns_iff]
  constructor
  · rintro ⟨n, rounds, t, error, hrounds, he, _, ho⟩
    obtain ⟨hrounds, hstop⟩ := rounds_exceptWhere_iff.1 hrounds
    exact ⟨rounds, t, hrounds, hstop, refuses_exceptWhere_iff.1 ⟨error, he⟩, ho⟩
  · rintro ⟨rounds, t, hrounds, hstop, hover, ho⟩
    obtain ⟨error, he⟩ := refuses_exceptWhere_iff.2 hover
    exact ⟨_, rounds, t, error, rounds_exceptWhere_iff.2 ⟨hrounds, hstop⟩, he, Nat.lt_succ_self _,
      ho⟩

theorem isLeast_stops (h : Rounds p s rounds t) (hstop : ∀ round ∈ rounds, stop.Refuses round.1)
    (hover : p.Over stop t) : IsLeast (stops p stop s) rounds.length :=
  ⟨⟨rounds, t, h, rfl, hover.imp_right And.right⟩, fun _ => h.length_le_of_mem_stops hstop⟩

end Parser

namespace Grammar

variable {rules : Rules} {g stop : Grammar} {s t : Text} {values : List Value} {log : List Event}

def exceptWhere (g stop : Grammar) (refusal : String) : Grammar :=
  bind (optional (peek stop)) fun
    | .option (some _) => never refusal
    | _ => g

theorem parserWithin_exceptWhere (g stop : Grammar) (refusal : String) (n : Nat) :
    (exceptWhere g stop refusal).parserWithin rules n =
      (g.parserWithin rules n).exceptWhere (stop.parserWithin rules n) (.failure refusal) := by
  funext s
  change ((((stop.parserWithin rules n).peek.optional s) >>= _) >>= _) =
    (((stop.parserWithin rules n).peek.optional s) >>= _)
  rw [LawfulMonad.bind_assoc]
  refine congrArg ((stop.parserWithin rules n).peek.optional s >>= ·) (funext fun o => ?_)
  cases o with
  | failure error => rfl
  | success found rest => cases found <;> rfl

theorem finishes_manyUntil_iff (refusal : String) (hlength : values.length < Bounds.any.most) :
    (manyUntil g stop).Finishes rules s ⟨log, .returns (.success (.list values) t)⟩ ↔
      (many (exceptWhere g stop refusal)).Finishes rules s
        ⟨log, .returns (.success (.list values) t)⟩ := by
  -- Within one allowance, that of the loop has to be larger than the number of values.
  have hloop : ∀ n, values.length < n →
      ((manyUntil g stop).parserWithin rules n s = ⟨log, .returns (.success (.list values) t)⟩ ↔
        (many (exceptWhere g stop refusal)).parserWithin rules n s =
          ⟨log, .returns (.success (.list values) t)⟩) := by
    intro n hn
    have hmany : (many (exceptWhere g stop refusal)).parserWithin rules n =
        ((exceptWhere g stop refusal).parserWithin rules n).many.map .list := rfl
    have huntil : (manyUntil g stop).parserWithin rules n =
        ((g.parserWithin rules n).manyUntil (stop.parserWithin rules n) n).map .list := rfl
    rw [hmany, huntil, Parser.map_eq_success_iff, Parser.map_eq_success_iff,
      parserWithin_exceptWhere, Parser.manyUntil_eq_untilFailure _ _ (.failure refusal)]
    simp only [Value.list.injEq, exists_eq_right]
    exact Parser.untilFailure_eq_iff_many hn hlength
  constructor
  · rintro ⟨n, hx, _⟩
    obtain ⟨found, hfound, hlist⟩ := Parser.ending_of_map_success (congrArg Run.ending hx)
    cases hlist
    rw [Parser.manyUntil_eq_untilFailure _ _ (.failure refusal)] at hfound
    exact ⟨n, (hloop n (Parser.length_lt_of_untilFailure hfound)).1 hx, nofun⟩
  · intro hx
    obtain ⟨n, hn, hlt⟩ :=
      (hx.eventually_eq.and (Filter.eventually_gt_atTop values.length)).exists
    exact ⟨n, (hloop n hlt).2 hn, nofun⟩

end Grammar

/-- A loop with a terminator never fails. It returns exactly if the rounds of its parser come to a
text where the terminator would succeed or the parser fails, at which none of the texts before was;
then it returns the values of these rounds and that text. What the terminator would find or leave
changes nothing, not even what is logged. Up to the largest number that a repetition counts, the
loop returns what the repetition does that looks ahead for the terminator, and so does the
grammar. -/
theorem manyUntil_stops_at_first_stop :
    (∀ {α β : Type} (p : Parser α) (stop : Parser β) (s : Text),
      (∀ o, (∃ n, (p.manyUntil stop n s).ending = .returns o) ↔
        ∃ rounds t, p.Rounds s rounds t ∧ (∀ round ∈ rounds, stop.Refuses round.1) ∧
          p.Over stop t ∧ IsLeast (p.stops stop s) rounds.length ∧
            o = .success (rounds.map Prod.snd) t) ∧
      (∀ {γ : Type} (other : Parser γ),
        (∀ rounds t, p.Rounds s rounds t → other.verdict t = stop.verdict t) →
          ∀ n, p.manyUntil other n s = p.manyUntil stop n s) ∧
      ∀ refusal log values t, values.length < Text.wordLimit - 1 →
        ((∃ n, p.manyUntil stop n s = ⟨log, .returns (.success values t)⟩) ↔
          (p.exceptWhere stop refusal).many s = ⟨log, .returns (.success values t)⟩)) ∧
    ∀ (rules : Rules) (g stop : Grammar) (refusal : String) (s : Text) log values t,
      values.length < Text.wordLimit - 1 →
        ((Grammar.manyUntil g stop).Finishes rules s
            ⟨log, .returns (.success (.list values) t)⟩ ↔
          (Grammar.many (Grammar.exceptWhere g stop refusal)).Finishes rules s
            ⟨log, .returns (.success (.list values) t)⟩) := by
  constructor
  · intro α β p stop s
    refine ⟨?_, fun other => Parser.manyUntil_congr_verdict, ?_⟩
    · intro o
      rw [Parser.exists_ending_manyUntil_iff]
      constructor
      · rintro ⟨rounds, t, h, hstop, hover, ho⟩
        exact ⟨rounds, t, h, hstop, hover, Parser.isLeast_stops h hstop hover, ho⟩
      · rintro ⟨rounds, t, h, hstop, hover, _, ho⟩
        exact ⟨rounds, t, h, hstop, hover, ho⟩
    · intro refusal log values t hlength
      simp only [Parser.manyUntil_eq_untilFailure p stop refusal]
      exact Parser.exists_untilFailure_eq_iff_many hlength
  · intro rules g stop refusal s log values t
    exact Grammar.finishes_manyUntil_iff refusal

/-- Characters up to two dashes: a single dash is passed, and the two dashes are left. -/
theorem manyUntil_stops_at_first_stop_dashes :
    (∀ n, (Parser.ofScanner .anyChar).manyUntil (Parser.ofScanner (.literal ['-', '-'])).peek n
        ['é', '-', 'b', '-', '-'] =
      (Parser.ofScanner .anyChar).manyUntil (Parser.ofScanner (.literal ['-', '-'])) n
        ['é', '-', 'b', '-', '-']) ∧
    IsLeast ((Parser.ofScanner .anyChar).stops (Parser.ofScanner (.literal ['-', '-']))
      ['é', '-', 'b', '-', '-']) 3 ∧
    [Value.char 'é', .char '-', .char 'b'].length < Text.wordLimit - 1 ∧
    (Grammar.many (Grammar.exceptWhere .anyChar (.literal ['-', '-']) "two dashes")).Finishes
      Grammar.noRules ['é', '-', 'b', '-', '-']
      ⟨[], .returns (.success (.list [.char 'é', .char '-', .char 'b']) ['-', '-'])⟩ := by
  have hloop := manyUntil_stops_at_first_stop.1 (Parser.ofScanner .anyChar)
    (Parser.ofScanner (.literal ['-', '-'])) ['é', '-', 'b', '-', '-']
  have hlength : [Value.char 'é', .char '-', .char 'b'].length < Text.wordLimit - 1 := by decide
  refine ⟨hloop.2.1 _ fun _ t _ => Parser.verdict_peek _ t, ?_, hlength, ?_⟩
  · obtain ⟨rounds, t, _, _, _, hleast, ho⟩ :=
      (hloop.1 (.success ['é', '-', 'b'] ['-', '-'])).1 ⟨4, rfl⟩
    have hrounds : rounds.length = 3 := by
      rw [← List.length_map Prod.snd, ← (Outcome.success.inj ho).1]
      rfl
    rwa [hrounds] at hleast
  · exact (manyUntil_stops_at_first_stop.2 _ _ _ _ _ _ _ _ hlength).1 ⟨4, rfl, nofun⟩

end TextGrammar
