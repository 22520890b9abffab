import Mathlib.Data.List.Basic
import TextGrammar.Parser.Repetition
import TextGrammar.Proofs.Ends

/-!
# Rounds of a repetition

A repetition applies its parser in rounds, each to what the round before it has left, up to the
first failure or to as many rounds as its bounds allow. Whether there were enough of them decides
between the values found and the error that stopped it.
-/

namespace TextGrammar.Parser

variable {α : Type}

/-- `p` finds a value in each of the texts in turn and leaves the next of them, at last `t`. -/
inductive Rounds (p : Parser α) : Text → List (Text × α) → Text → Prop
  | nil {s : Text} : Rounds p s [] s
  | cons {s t u : Text} {value : α} {rounds : List (Text × α)} :
    (p s).ending = .returns (.success value t) → Rounds p t rounds u →
    Rounds p s ((s, value) :: rounds) u

/-- There are as many rounds as `most` allows, or fewer because the next one fails. -/
def Exhausted (p : Parser α) (most : Nat) (rounds : List (Text × α)) (t : Text) : Prop :=
  rounds.length = most ∨
    rounds.length < most ∧ ∃ error, (p t).ending = .returns (.failure error)

def roundsLog (p : Parser α) (rounds : List (Text × α)) : List Event :=
  rounds.flatMap fun round => (p round.1).log

variable {p q : Parser α} {s t : Text} {rounds : List (Text × α)} {least most : Nat}
  {error : ParseError}

theorem roundsLog_cons (s : Text) (value : α) (rounds : List (Text × α)) :
    p.roundsLog ((s, value) :: rounds) = (p s).log ++ p.roundsLog rounds := List.flatMap_cons

theorem roundsLog_congr (hq : ∀ round ∈ rounds, q round.1 = p round.1) :
    q.roundsLog rounds = p.roundsLog rounds :=
  List.flatMap_congr fun round hr => congrArg Run.log (hq round hr)

theorem Rounds.congr (h : Rounds p s rounds t) (hq : ∀ round ∈ rounds, q round.1 = p round.1) :
    Rounds q s rounds t := by
  induction h with
  | nil => exact .nil
  | cons hs _ ih =>
    obtain ⟨hfirst, hothers⟩ := List.forall_mem_cons.1 hq
    refine .cons ?_ (ih hothers)
    rw [hfirst, hs]

/-! ## One round -/

theorem repeatWithin_of_success {value : α} {log : List Event} {o : Outcome (List α)}
    (h : (p s).ending = .returns (.success value t))
    (hr : p.repeatWithin (least - 1) most t = ⟨log, .returns o⟩) :
    p.repeatWithin least (most + 1) s =
      ⟨(p s).log ++ log, .returns (o.map (value :: ·))⟩ := by
  rw [repeatWithin_succ, Run.bind_eq_of_returns _ h]
  dsimp only
  rw [hr, Run.bind_eq_of_returns _ rfl]
  change Run.mk ((p s).log ++ (log ++ [])) _ = _
  rw [List.append_nil]
  rfl

theorem repeatWithin_of_first_failure (h : (p s).ending = .returns (.failure error)) :
    p.repeatWithin least (most + 1) s =
      ⟨(p s).log, .returns (if least = 0 then .success [] s else .failure error)⟩ := by
  rw [repeatWithin_succ, Run.bind_eq_of_returns _ h]
  dsimp only
  split
  · change Run.mk ((p s).log ++ []) _ = _
    rw [List.append_nil]
    rfl
  · change Run.mk ((p s).log ++ []) _ = _
    rw [List.append_nil]
    rfl

/-! ## All rounds -/

theorem repeatWithin_of_length_eq (h : Rounds p s rounds t) (hm : rounds.length = most) :
    p.repeatWithin least most s =
      ⟨p.roundsLog rounds, .returns (.success (rounds.map Prod.snd) t)⟩ := by
  subst hm
  induction h generalizing least with
  | nil => exact repeatWithin_zero p least _
  | cons hs _ ih =>
    rw [List.length_cons, repeatWithin_of_success hs ih, roundsLog_cons]
    rfl

theorem repeatWithin_of_failure (h : Rounds p s rounds t) (hlt : rounds.length < most)
    (he : (p t).ending = .returns (.failure error)) :
    p.repeatWithin least most s = ⟨p.roundsLog rounds ++ (p t).log,
      .returns (if least ≤ rounds.length then .success (rounds.map Prod.snd) t
        else .failure error)⟩ := by
  induction h generalizing least most with
  | nil =>
    obtain ⟨most, rfl⟩ := Nat.exists_eq_succ_of_ne_zero (Nat.ne_zero_of_lt hlt)
    rw [repeatWithin_of_first_failure he]
    simp only [List.length_nil, Nat.le_zero]
    rfl
  | cons hs _ ih =>
    obtain ⟨most, rfl⟩ := Nat.exists_eq_succ_of_ne_zero (Nat.ne_zero_of_lt hlt)
    rw [repeatWithin_of_success hs (ih (Nat.lt_of_succ_lt_succ hlt) he), roundsLog_cons,
      List.append_assoc]
    simp only [List.length_cons, Nat.sub_le_iff_le_add, List.map_cons]
    split
    · rfl
    · rfl

theorem exists_rounds_of_returns {o : Outcome (List α)}
    (h : (p.repeatWithin least most s).ending = .returns o) :
    ∃ rounds t, Rounds p s rounds t ∧ p.Exhausted most rounds t := by
  induction most generalizing least s o with
  | zero => exact ⟨[], s, .nil, Or.inl rfl⟩
  | succ most ih =>
    rw [repeatWithin_succ] at h
    obtain ⟨first, hx, h⟩ := Run.ending_bind_eq_returns_iff.1 h
    cases first with
    | failure error => exact ⟨[], s, .nil, Or.inr ⟨Nat.succ_pos most, error, hx⟩⟩
    | success value t =>
      obtain ⟨others, hr, _⟩ := Run.ending_bind_eq_returns_iff.1 h
      obtain ⟨rounds, u, hrounds, hstop⟩ := ih hr
      refine ⟨(s, value) :: rounds, u, .cons hx hrounds, ?_⟩
      rcases hstop with hfull | ⟨hlt, hfails⟩
      · exact Or.inl (congrArg (· + 1) hfull)
      · exact Or.inr ⟨Nat.succ_lt_succ hlt, hfails⟩

/-- The rounds decide the run: enough of them give their values and what is left, too few the error
that stopped them. -/
theorem repeated_eq_of_rounds {bounds : Bounds} (hb : bounds.least ≤ bounds.most)
    (h : Rounds p s rounds t) (hstop : p.Exhausted bounds.most rounds t) :
    (p.repeated bounds s).log =
      p.roundsLog rounds ++ (if rounds.length < bounds.most then (p t).log else []) ∧
    ((p.repeated bounds s).ending = .returns (.success (rounds.map Prod.snd) t) ∧
        bounds.least ≤ rounds.length ∨
      ∃ error, (p t).ending = .returns (.failure error) ∧
        (p.repeated bounds s).ending = .returns (.failure error) ∧
          rounds.length < bounds.least) := by
  rw [repeated_of_le hb]
  rcases hstop with hfull | ⟨hlt, error, he⟩
  · rw [repeatWithin_of_length_eq h hfull, if_neg (by omega), List.append_nil]
    exact ⟨rfl, Or.inl ⟨rfl, by omega⟩⟩
  · rw [repeatWithin_of_failure h hlt he, if_pos hlt]
    refine ⟨rfl, ?_⟩
    by_cases hle : bounds.least ≤ rounds.length
    · exact Or.inl ⟨by rw [if_pos hle], hle⟩
    · exact Or.inr ⟨error, he, by rw [if_neg hle], by omega⟩

theorem repeated_congr {bounds : Bounds} (hb : bounds.least ≤ bounds.most)
    (h : Rounds p s rounds t) (hstop : p.Exhausted bounds.most rounds t)
    (hq : ∀ round ∈ rounds, q round.1 = p round.1)
    (hlast : rounds.length < bounds.most → q t = p t) :
    q.repeated bounds s = p.repeated bounds s := by
  rw [repeated_of_le hb, repeated_of_le hb]
  have hrounds := h.congr hq
  rcases hstop with hfull | ⟨hlt, error, he⟩
  · rw [repeatWithin_of_length_eq h hfull, repeatWithin_of_length_eq hrounds hfull,
      roundsLog_congr hq]
  · have he' : (q t).ending = .returns (.failure error) := by rw [hlast hlt, he]
    rw [repeatWithin_of_failure h hlt he, repeatWithin_of_failure hrounds hlt he',
      roundsLog_congr hq, hlast hlt]

theorem ending_repeated_eq_returns_iff {bounds : Bounds} (hb : bounds.least ≤ bounds.most)
    {o : Outcome (List α)} :
    (p.repeated bounds s).ending = .returns o ↔
      ∃ rounds t, Rounds p s rounds t ∧ p.Exhausted bounds.most rounds t ∧
        (bounds.least ≤ rounds.length ∧ o = .success (rounds.map Prod.snd) t ∨
          rounds.length < bounds.least ∧ ∃ error,
            (p t).ending = .returns (.failure error) ∧ o = .failure error) := by
  constructor
  · intro ho
    have hreturns := ho
    rw [repeated_of_le hb] at hreturns
    obtain ⟨rounds, t, h, hstop⟩ := exists_rounds_of_returns hreturns
    refine ⟨rounds, t, h, hstop, ?_⟩
    rcases (repeated_eq_of_rounds hb h hstop).2 with ⟨hx, hle⟩ | ⟨error, he, hx, hlt⟩
    · exact Or.inl ⟨hle, Ending.returns.inj (ho.symm.trans hx)⟩
    · exact Or.inr ⟨hlt, error, he, Ending.returns.inj (ho.symm.trans hx)⟩
  · rintro ⟨rounds, t, h, hstop, ho⟩
    rcases (repeated_eq_of_rounds hb h hstop).2 with ⟨hx, hle⟩ | ⟨error, he, hx, hlt⟩
    · rcases ho with ⟨_, rfl⟩ | ⟨hlt, _⟩
      · exact hx
      · omega
    · rcases ho with ⟨hle, _⟩ | ⟨_, error', he', rfl⟩
      · omega
      · cases he.symm.trans he'
        exact hx

theorem repeated_ne_failure {bounds : Bounds} (hb : bounds.least = 0) (error : ParseError) :
    (p.repeated bounds s).ending ≠ .returns (.failure error) := by
  intro hx
  have hle : bounds.least ≤ bounds.most := by omega
  obtain ⟨rounds, t, _, _, ho⟩ := (ending_repeated_eq_returns_iff hle).1 hx
  rcases ho with ⟨_, ho⟩ | ⟨hlt, _⟩
  · cases ho
  · omega

theorem many_of_many {values : List α} (h : (p.many s).ending = .returns (.success values t))
    (hlength : values.length < Text.wordLimit - 1) :
    (p.many t).ending = .returns (.success [] t) := by
  have hany : Bounds.any.least ≤ Bounds.any.most := Nat.zero_le _
  obtain ⟨rounds, u, _, hstop, ho⟩ := (ending_repeated_eq_returns_iff hany).1 h
  rcases ho with ⟨_, ho⟩ | ⟨hlt, _⟩
  · obtain ⟨rfl, rfl⟩ := Outcome.success.inj ho
    rw [List.length_map] at hlength
    rcases hstop with hfull | ⟨_, error, he⟩
    · exact absurd hfull (Nat.ne_of_lt hlength)
    · have hpos : 0 < Bounds.any.most := Nat.zero_lt_of_lt hlength
      exact (ending_repeated_eq_returns_iff hany).2
        ⟨[], t, .nil, Or.inr ⟨hpos, error, he⟩, Or.inl ⟨Nat.zero_le _, rfl⟩⟩
  · exact absurd hlt (Nat.not_lt_zero _)

/-- A repetition whose bounds are in order is greedy: it returns exactly if its rounds go on to the
first failure or to the upper bound, with their values and what the last one left if there are
enough of them, and otherwise with the error that stopped them. It logs what the parser logs in
these rounds and at the failure, and depends on the parser nowhere else. So it never fails without a
lower bound, and repeated on what it has left without one it finds nothing more. -/
theorem repeated_is_greedy (p : Parser α) (bounds : Bounds) (input : Text)
    (hb : bounds.least ≤ bounds.most) :
    (∀ o, (p.repeated bounds input).ending = .returns o ↔
      ∃ rounds t, Rounds p input rounds t ∧ p.Exhausted bounds.most rounds t ∧
        (bounds.least ≤ rounds.length ∧ o = .success (rounds.map Prod.snd) t ∨
          rounds.length < bounds.least ∧ ∃ error,
            (p t).ending = .returns (.failure error) ∧ o = .failure error)) ∧
    (∀ rounds t, Rounds p input rounds t → p.Exhausted bounds.most rounds t →
      (p.repeated bounds input).log =
        p.roundsLog rounds ++ (if rounds.length < bounds.most then (p t).log else []) ∧
      ∀ q : Parser α, (∀ round ∈ rounds, q round.1 = p round.1) →
        (rounds.length < bounds.most → q t = p t) →
          q.repeated bounds input = p.repeated bounds input) ∧
    (bounds = .any ∨ (∃ n, bounds = .atMost n) →
      ∀ error, (p.repeated bounds input).ending ≠ .returns (.failure error)) ∧
    ∀ values t, (p.many input).ending = .returns (.success values t) →
      values.length < Text.wordLimit - 1 → (p.many t).ending = .returns (.success [] t) := by
  refine ⟨fun o => ending_repeated_eq_returns_iff hb, ?_, ?_, fun values t => many_of_many⟩
  · intro rounds t h hstop
    exact ⟨(repeated_eq_of_rounds hb h hstop).1, fun q => repeated_congr hb h hstop⟩
  · rintro (rfl | ⟨n, rfl⟩) error
    · exact repeated_ne_failure rfl error
    · exact repeated_ne_failure rfl error

/-- Two vowels of at most three are found before a consonant; of a single one the error at the
consonant comes back; and a fourth vowel is left, whatever the parser would do with it. Without a
least number no vowel is asked for, and without a greatest one all of them are taken. -/
theorem repeated_vowels_is_greedy :
    Bounds.least (.between 2 3) ≤ Bounds.most (.between 2 3) ∧
    ((ofScanner .vowel).repeated (.between 2 3) ['a', 'e', 'b']).ending =
      .returns (.success ['a', 'e'] ['b']) ∧
    ((ofScanner .vowel).repeated (.between 2 3) ['a', 'b', 'c']).ending =
      .returns (.failure (.failure "not a vowel")) ∧
    ((ofScanner .vowel).repeated (.between 2 3) ['i', 'o', 'u', 'a']).ending =
      .returns (.success ['i', 'o', 'u'] ['a']) ∧
    ((ofScanner .vowel).repeated .any ['b']).ending = .returns (.success [] ['b']) ∧
    ((ofScanner .vowel).repeated (.atMost 1) ['a', 'e']).ending =
      .returns (.success ['a'] ['e']) ∧
    ((ofScanner .vowel).repeated (.atLeast 1) ['a', 'e']).ending =
      .returns (.success ['a', 'e'] []) ∧
    ((ofScanner .vowel).repeated (.atLeast 1) ['b']).ending =
      .returns (.failure (.failure "not a vowel")) := by
  have hb : Bounds.least (.between 2 3) ≤ Bounds.most (.between 2 3) := by decide
  have hl : Bounds.least (.atLeast 1) ≤ Bounds.most (.atLeast 1) := by decide
  have h := fun bounds input hb => (repeated_is_greedy (ofScanner .vowel) bounds input hb).1
  refine ⟨hb, ?_, ?_, ?_, ?_, ?_, ?_, ?_⟩
  · exact (h _ _ hb _).2 ⟨[(['a', 'e', 'b'], 'a'), (['e', 'b'], 'e')], ['b'],
      .cons rfl (.cons rfl .nil), Or.inr ⟨by decide, _, rfl⟩, Or.inl ⟨by decide, rfl⟩⟩
  · exact (h _ _ hb _).2 ⟨[(['a', 'b', 'c'], 'a')], ['b', 'c'], .cons rfl .nil,
      Or.inr ⟨by decide, _, rfl⟩, Or.inr ⟨by decide, _, rfl, rfl⟩⟩
  · exact (h _ _ hb _).2 ⟨[(['i', 'o', 'u', 'a'], 'i'), (['o', 'u', 'a'], 'o'),
      (['u', 'a'], 'u')], ['a'], .cons rfl (.cons rfl (.cons rfl .nil)), Or.inl rfl,
      Or.inl ⟨by decide, rfl⟩⟩
  · exact (h .any _ (by decide) _).2 ⟨[], ['b'], .nil, Or.inr ⟨by decide, _, rfl⟩,
      Or.inl ⟨by decide, rfl⟩⟩
  · exact (h (.atMost 1) _ (by decide) _).2 ⟨[(['a', 'e'], 'a')], ['e'], .cons rfl .nil,
      Or.inl rfl, Or.inl ⟨by decide, rfl⟩⟩
  · exact (h _ _ hl _).2 ⟨[(['a', 'e'], 'a'), (['e'], 'e')], [], .cons rfl (.cons rfl .nil),
      Or.inr ⟨by decide, _, rfl⟩, Or.inl ⟨by decide, rfl⟩⟩
  · exact (h _ _ hl _).2 ⟨[], ['b'], .nil, Or.inr ⟨by decide, _, rfl⟩,
      Or.inr ⟨by decide, _, rfl, rfl⟩⟩

end TextGrammar.Parser
