import TextGrammar.Proofs.Finds
import TextGrammar.Proofs.Rounds

/-!
# Loops that go on until a failure

A loop without an upper bound applies a parser in rounds until it fails. It is given a number of
rounds and is cut off if it uses them up. Up to there it does what a repetition does that may go on
for longer: it returns exactly if its rounds come to a failure, with the values of these rounds.
-/

namespace TextGrammar.Parser

variable {α β : Type} {p : Parser α} {s t : Text} {rounds : List (Text × α)} {error : ParseError}

def untilFailure (p : Parser α) : (rounds : Nat) → Parser (List α)
  | 0, _ => Run.cutOff
  | rounds + 1, s => do
    match ← p s with
    | .success value t => return (← untilFailure p rounds t).map (value :: ·)
    | .failure _ => pure (.success [] s)

theorem untilFailure_succ (p : Parser α) (n : Nat) (s : Text) :
    p.untilFailure (n + 1) s = (do
      match ← p s with
      | .success value t => return (← untilFailure p n t).map (value :: ·)
      | .failure _ => pure (.success [] s)) := rfl

theorem afterSeparators_eq_untilFailure (p : Parser α) (separator : Parser β) (rounds : Nat) :
    p.afterSeparators separator rounds = (separator.followedBy p).untilFailure rounds := by
  induction rounds with
  | zero => rfl
  | succ rounds ih =>
    funext s
    rw [afterSeparators_succ, untilFailure_succ]
    change _ = (separator s >>= _) >>= _
    rw [LawfulMonad.bind_assoc, ih]
    refine congrArg (separator s >>= ·) (funext fun o => ?_)
    cases o with
    | failure error => rfl
    | success found between =>
      refine congrArg (p between >>= ·) (funext fun o' => ?_)
      cases o' <;> rfl

/-! ## How many rounds there are -/

/-- Fewer than `limit` rounds of `p` succeed in a row. -/
def RoundsBelow (p : Parser α) (limit : Nat) (s : Text) : Prop :=
  ∀ rounds t, Rounds p s rounds t → rounds.length < limit

theorem RoundsBelow.of_success {limit : Nat} {value : α} (h : p.RoundsBelow (limit + 1) s)
    (hs : (p s).ending = .returns (.success value t)) : p.RoundsBelow limit t := by
  intro rounds u hrounds
  have hlt := h _ _ (.cons hs hrounds)
  rw [List.length_cons] at hlt
  omega

theorem Rounds.of_ending_eq {q : Parser α} (h : Rounds q s rounds t)
    (hq : ∀ s, (q s).ending = (p s).ending) : Rounds p s rounds t := by
  induction h with
  | nil => exact .nil
  | cons hs _ ih => exact .cons ((hq _).symm.trans hs) ih

theorem Rounds.below_of_failure (h : Rounds p s rounds t)
    (he : (p t).ending = .returns (.failure error)) : p.RoundsBelow (rounds.length + 1) s := by
  induction h with
  | nil =>
    intro others u hothers
    cases hothers with
    | nil => exact Nat.zero_lt_one
    | cons hs _ => cases he.symm.trans hs
  | cons hs _ ih =>
    intro others u hothers
    cases hothers with
    | nil => exact Nat.succ_pos _
    | cons hs' hothers =>
      cases hs.symm.trans hs'
      exact Nat.succ_lt_succ (ih he _ _ hothers)

/-! ## The loop and its rounds -/

/-- The loop is the repetition, where both may go on for longer than the rounds succeed. -/
theorem untilFailure_eq_repeatWithin {limit n most : Nat} (h : p.RoundsBelow limit s)
    (hn : limit ≤ n) (hm : limit ≤ most) : p.untilFailure n s = p.repeatWithin 0 most s := by
  induction limit generalizing s n most with
  | zero => exact absurd (h [] s .nil) (Nat.lt_irrefl 0)
  | succ limit ih =>
    obtain ⟨n, rfl⟩ := Nat.exists_eq_add_of_le' hn
    obtain ⟨most, rfl⟩ := Nat.exists_eq_add_of_le' hm
    change p.untilFailure (n + limit + 1) s = p.repeatWithin 0 (most + limit + 1) s
    rw [untilFailure_succ, repeatWithin_succ]
    apply Run.bind_congr_of_returns
    intro o ho
    cases o with
    | failure error => rfl
    | success value t =>
      dsimp only
      rw [ih (h.of_success ho) (Nat.le_add_left _ _) (Nat.le_add_left _ _)]

theorem untilFailure_of_failure (h : Rounds p s rounds t)
    (he : (p t).ending = .returns (.failure error)) {n : Nat} (hn : rounds.length < n) :
    p.untilFailure n s =
      ⟨p.roundsLog rounds ++ (p t).log, .returns (.success (rounds.map Prod.snd) t)⟩ := by
  rw [untilFailure_eq_repeatWithin (h.below_of_failure he) hn hn, repeatWithin_of_failure h hn he,
    if_pos (Nat.zero_le _)]

theorem ending_untilFailure_of_rounds {limit : Nat} (h : Rounds p s rounds t)
    (hle : limit ≤ rounds.length) : (p.untilFailure limit s).ending = .unfinished := by
  induction h generalizing limit with
  | nil =>
    obtain rfl := Nat.le_zero.1 hle
    rfl
  | cons hs _ ih =>
    cases limit with
    | zero => rfl
    | succ limit =>
      rw [untilFailure_succ, Run.bind_eq_of_returns _ hs]
      dsimp only
      rw [Run.bind_eq_of_unfinished _ (ih (Nat.le_of_succ_le_succ hle))]

theorem roundsBelow_of_ending_ne {n : Nat} (h : (p.untilFailure n s).ending ≠ .unfinished) :
    p.RoundsBelow n s := by
  intro rounds t hrounds
  by_contra hle
  exact h (ending_untilFailure_of_rounds hrounds (Nat.not_lt.1 hle))

theorem ending_untilFailure_eq_returns_iff {n : Nat} {o : Outcome (List α)} :
    (p.untilFailure n s).ending = .returns o ↔
      ∃ rounds t error, Rounds p s rounds t ∧ (p t).ending = .returns (.failure error) ∧
        rounds.length < n ∧ o = .success (rounds.map Prod.snd) t := by
  constructor
  · intro ho
    have hbelow : p.RoundsBelow n s := roundsBelow_of_ending_ne (by simp [ho])
    have hreturns := ho
    rw [untilFailure_eq_repeatWithin hbelow (Nat.le_refl n) (Nat.le_refl n)] at hreturns
    obtain ⟨rounds, t, hrounds, hstop⟩ := exists_rounds_of_returns hreturns
    have hlt : rounds.length < n := hbelow rounds t hrounds
    rcases hstop with hfull | ⟨_, error, he⟩
    · exact absurd hfull (Nat.ne_of_lt hlt)
    · rw [untilFailure_of_failure hrounds he hlt] at ho
      exact ⟨rounds, t, error, hrounds, he, hlt, (Ending.returns.inj ho).symm⟩
  · rintro ⟨rounds, t, error, hrounds, he, hlt, rfl⟩
    rw [untilFailure_of_failure hrounds he hlt]

theorem length_lt_of_untilFailure {n : Nat} {values : List α}
    (h : (p.untilFailure n s).ending = .returns (.success values t)) : values.length < n := by
  obtain ⟨rounds, u, error, _, _, hlt, ho⟩ := ending_untilFailure_eq_returns_iff.1 h
  obtain ⟨rfl, rfl⟩ := Outcome.success.inj ho
  rwa [List.length_map]

/-- With more rounds than there are values, the loop has the same runs that return as the repetition
without bounds, as long as that does not come to the largest number it counts. -/
theorem untilFailure_eq_iff_many {n : Nat} {log : List Event} {values : List α}
    (hn : values.length < n) (hlength : values.length < Bounds.any.most) :
    p.untilFailure n s = ⟨log, .returns (.success values t)⟩ ↔
      p.many s = ⟨log, .returns (.success values t)⟩ := by
  have hmany : p.many s = p.repeatWithin 0 Bounds.any.most s := repeated_of_le (Nat.zero_le _) s
  -- Either way the rounds come to a failure, and from there on both runs are known.
  have hruns : ∀ rounds u error, Rounds p s rounds u → (p u).ending = .returns (.failure error) →
      rounds.map Prod.snd = values → p.untilFailure n s = p.many s := by
    rintro rounds u error hrounds he rfl
    rw [List.length_map] at hn hlength
    rw [untilFailure_of_failure hrounds he hn, hmany, repeatWithin_of_failure hrounds hlength he,
      if_pos (Nat.zero_le _)]
  constructor
  · intro hx
    obtain ⟨rounds, u, error, hrounds, he, _, ho⟩ :=
      ending_untilFailure_eq_returns_iff.1 (congrArg Run.ending hx)
    exact (hruns rounds u error hrounds he (Outcome.success.inj ho).1.symm).symm.trans hx
  · intro hx
    obtain ⟨rounds, u, hrounds, hstop, ho⟩ :=
      (ending_repeated_eq_returns_iff (Nat.zero_le _)).1 (congrArg Run.ending hx)
    rcases ho with ⟨_, ho⟩ | ⟨hlt, _⟩
    · obtain ⟨rfl, rfl⟩ := Outcome.success.inj ho
      rw [List.length_map] at hlength
      rcases hstop with hfull | ⟨_, error, he⟩
      · exact absurd hfull (Nat.ne_of_lt hlength)
      · exact (hruns rounds _ error hrounds he rfl).trans hx
    · exact absurd hlt (Nat.not_lt_zero _)

theorem exists_untilFailure_eq_iff_many {log : List Event} {values : List α}
    (hlength : values.length < Bounds.any.most) :
    (∃ n, p.untilFailure n s = ⟨log, .returns (.success values t)⟩) ↔
      p.many s = ⟨log, .returns (.success values t)⟩ := by
  constructor
  · rintro ⟨n, hx⟩
    have hn := length_lt_of_untilFailure (congrArg Run.ending hx)
    exact (untilFailure_eq_iff_many hn hlength).1 hx
  · intro hx
    exact ⟨_, (untilFailure_eq_iff_many (Nat.lt_succ_self _) hlength).2 hx⟩

end TextGrammar.Parser
