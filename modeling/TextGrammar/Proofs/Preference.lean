import TextGrammar.Proofs.Finds
import TextGrammar.Proofs.Nearest
import TextGrammar.Proofs.Occurrences
import TextGrammar.Proofs.Remaining

/-!
# What the nearest choice prefers

The nearest choice goes through its alternatives in order and keeps the best success so far. What
it comes to is the first of the successes that leave the most bytes. Where all alternatives leave
suffixes of the text, equally long rests are equal, so the order of the alternatives matters to the
value alone.
-/

namespace TextGrammar

theorem Text.eq_of_suffix_of_bytes_eq {s a b : Text} (ha : a <:+ s) (hb : b <:+ s)
    (h : bytes a = bytes b) : a = b := by
  have hab := (bytes_le_iff_of_suffix ha hb).1 (Nat.le_of_eq h)
  have hba := (bytes_le_iff_of_suffix hb ha).1 (Nat.le_of_eq h.symm)
  exact (List.suffix_of_suffix_length_le ha hb hab).eq_of_length (Nat.le_antisymm hab hba)

namespace Parser

open Text

variable {α : Type}

/-! ## The choice as a scan -/

def found? : Outcome α → Option (α × Text)
  | .success value rest => some (value, rest)
  | .failure _ => none

/-- The earlier of two candidates is kept, unless the later one leaves more bytes. -/
def preferred : Option (α × Text) → Option (α × Text) → Option (α × Text)
  | none, later => later
  | some earlier, none => some earlier
  | some earlier, some later =>
    if bytes later.2 ≤ bytes earlier.2 then some earlier else some later

/-- Applies the alternatives in order, with the best success so far in `best`. -/
def scanBest (best : Option (α × Text)) : List (Parser α) → Text → Run (Option (α × Text))
  | [], _ => pure best
  | p :: others, input => do
    let outcome ← p input
    scanBest (preferred best (found? outcome)) others input

def nearestByScan (alternatives : List (Parser α)) : Parser α := fun input => do
  match ← scanBest none alternatives input with
  | some (value, rest) => pure (.success value rest)
  | none => pure (.failure (.noAlternative alternatives.length (preview input)))

theorem nearer_eq_preferred (o : Outcome α) (best : Option (α × Text)) :
    nearer o best = preferred (found? o) best := by
  cases o with
  | failure error => rfl
  | success value rest => cases best <;> rfl

theorem preferred_none (best : Option (α × Text)) : preferred best none = best := by
  cases best <;> rfl

theorem preferred_assoc (a b c : Option (α × Text)) :
    preferred (preferred a b) c = preferred a (preferred b c) := by
  cases a with
  | none => rfl
  | some a =>
    cases b with
    | none => rfl
    | some b =>
      cases c with
      | none => rw [preferred_none, preferred_none]
      | some c =>
        by_cases hba : bytes b.2 ≤ bytes a.2
        · by_cases hcb : bytes c.2 ≤ bytes b.2
          · have hca : bytes c.2 ≤ bytes a.2 := Nat.le_trans hcb hba
            simp only [preferred, if_pos hba, if_pos hcb, if_pos hca]
          · simp only [preferred, if_pos hba, if_neg hcb]
        · by_cases hcb : bytes c.2 ≤ bytes b.2
          · simp only [preferred, if_neg hba, if_pos hcb]
          · have hca : ¬ bytes c.2 ≤ bytes a.2 := by omega
            simp only [preferred, if_neg hba, if_neg hcb, if_neg hca]

/-- What the scan has kept is preferred to the best of the alternatives it has not come to yet. -/
theorem scanBest_eq (best : Option (α × Text)) (alternatives : List (Parser α)) (s : Text) :
    scanBest best alternatives s = do
      return preferred best (← leastConsuming alternatives s) := by
  induction alternatives generalizing best with
  | nil =>
    change pure best = pure (preferred best none)
    rw [preferred_none]
  | cons p others ih =>
    change (p s >>= fun o => scanBest (preferred best (found? o)) others s) = _
    simp only [leastConsuming, ih, LawfulMonad.bind_assoc, LawfulMonad.pure_bind,
      nearer_eq_preferred, preferred_assoc]

theorem nearestByScan_eq (alternatives : List (Parser α)) :
    nearestByScan alternatives = nearest alternatives := by
  funext s
  unfold nearestByScan nearest
  rw [scanBest_eq]
  exact congrArg (· >>= _) (Run.bind_pure (leastConsuming alternatives s))

/-! ## The place of the preferred alternative -/

/-- The alternative at `i` succeeds; no other success leaves more bytes, and none listed earlier
leaves as many. -/
def PreferredAt (alternatives : List (Parser α)) (s : Text) (i : Nat) (value : α) (rest : Text) :
    Prop :=
  (∃ p, alternatives[i]? = some p ∧ (p s).ending = .returns (.success value rest)) ∧
    ∀ j q v r, alternatives[j]? = some q → (q s).ending = .returns (.success v r) →
      bytes r ≤ bytes rest ∧ (bytes r = bytes rest → i ≤ j)

theorem best_eq_some_iff_getElem? {outcomes : List (Outcome α)} {value : α} {rest : Text} :
    best outcomes = some (value, rest) ↔
      ∃ i : Nat, outcomes[i]? = some (Outcome.success value rest) ∧
        ∀ (j : Nat) v r, outcomes[j]? = some (Outcome.success v r) →
          bytes r ≤ bytes rest ∧ (bytes r = bytes rest → i ≤ j) := by
  constructor
  · intro h
    obtain ⟨earlier, later, rfl, hearlier, hlater⟩ := exists_bestAt h
    refine ⟨earlier.length, by simp, ?_⟩
    intro j v r hj
    rcases Nat.lt_or_ge j earlier.length with hlt | hge
    · rw [List.getElem?_append_left hlt] at hj
      have hr := hearlier v r (List.mem_of_getElem? hj)
      exact ⟨Nat.le_of_lt hr, fun he => absurd he (Nat.ne_of_lt hr)⟩
    · rw [List.getElem?_append_right hge] at hj
      refine ⟨?_, fun _ => hge⟩
      rcases List.mem_cons.1 (List.mem_of_getElem? hj) with heq | hmem
      · cases heq
        exact Nat.le_refl _
      · exact hlater v r hmem
  · rintro ⟨i, hi, hmost⟩
    obtain ⟨hlt, hget⟩ := List.getElem?_eq_some_iff.1 hi
    have hsplit : outcomes = outcomes.take i ++ .success value rest :: outcomes.drop (i + 1) := by
      rw [← hget, ← List.drop_eq_getElem_cons hlt, List.take_append_drop]
    rw [hsplit]
    apply best_of_bestAt
    constructor
    · intro v r hmem
      obtain ⟨j, hj⟩ := List.mem_iff_getElem?.1 hmem
      rw [List.getElem?_take] at hj
      split at hj
      · next hji =>
        obtain ⟨hle, hfirst⟩ := hmost j v r hj
        refine Nat.lt_of_le_of_ne hle ?_
        intro he
        exact absurd (hfirst he) (Nat.not_le_of_lt hji)
      · cases hj
    · intro v r hmem
      obtain ⟨j, hj⟩ := List.mem_iff_getElem?.1 hmem
      rw [List.getElem?_drop] at hj
      exact (hmost _ v r hj).1

section Outcomes

variable {alternatives : List (Parser α)} {s : Text}

theorem exists_outcomes (h : ∀ p ∈ alternatives, ∃ o, (p s).ending = .returns o) :
    ∃ outcome : Parser α → Outcome α,
      (∀ p ∈ alternatives, (p s).ending = .returns (outcome p)) ∧
        List.Forall₂ (fun p o => (p s).ending = .returns o) alternatives
          (alternatives.map outcome) := by
  have : Nonempty (Outcome α) := ⟨.failure .noCharacter⟩
  choose! outcome houtcome using h
  refine ⟨outcome, houtcome, ?_⟩
  rw [List.forall₂_map_right_iff, List.forall₂_same]
  exact houtcome

theorem ending_nearest_eq_success_iff_preferredAt
    (h : ∀ p ∈ alternatives, ∃ o, (p s).ending = .returns o) {value : α} {rest : Text} :
    (nearest alternatives s).ending = .returns (.success value rest) ↔
      ∃ i, PreferredAt alternatives s i value rest := by
  obtain ⟨outcome, houtcome, hall⟩ := exists_outcomes h
  -- At each place, what the alternative ends in is what stands there in the list of outcomes.
  have hplace : ∀ (j : Nat) v r, (alternatives.map outcome)[j]? = some (Outcome.success v r) ↔
      ∃ q : Parser α, alternatives[j]? = some q ∧ (q s).ending = .returns (.success v r) := by
    intro j v r
    rw [List.getElem?_map, Option.map_eq_some_iff]
    refine exists_congr fun q => and_congr_right fun hq => ?_
    rw [houtcome q (List.mem_of_getElem? hq), Ending.returns.injEq]
  rw [ending_nearest_eq_success_iff hall, best_eq_some_iff_getElem?]
  refine exists_congr fun i => and_congr (hplace i value rest) ?_
  constructor
  · intro hmost j q v r hq hx
    exact hmost j v r ((hplace j v r).2 ⟨q, hq, hx⟩)
  · intro hmost j v r hj
    obtain ⟨q, hq, hx⟩ := (hplace j v r).1 hj
    exact hmost j q v r hq hx

theorem ending_nearest_eq_failure_iff
    (h : ∀ p ∈ alternatives, ∃ o, (p s).ending = .returns o) {error : ParseError} :
    (nearest alternatives s).ending = .returns (.failure error) ↔
      error = .noAlternative alternatives.length (preview s) ∧
        ∀ p ∈ alternatives, ∃ refusal, (p s).ending = .returns (.failure refusal) := by
  obtain ⟨outcome, houtcome, hall⟩ := exists_outcomes h
  have hfails : (∀ p ∈ alternatives, ∃ refusal, (p s).ending = .returns (.failure refusal)) ↔
      best (alternatives.map outcome) = none := by
    rw [best_eq_none_iff, List.forall_mem_map]
    refine forall₂_congr fun p hp => exists_congr fun refusal => ?_
    rw [houtcome p hp, Ending.returns.injEq]
  rw [hfails]
  unfold nearest
  rw [Run.ending_bind, ending_leastConsuming hall]
  cases best (alternatives.map outcome) with
  | none => simp [eq_comm]
  | some found => simp

theorem exists_ending_nearest (h : ∀ p ∈ alternatives, ∃ o, (p s).ending = .returns o) :
    ∃ o, (nearest alternatives s).ending = .returns o := by
  obtain ⟨outcome, _, hall⟩ := exists_outcomes h
  unfold nearest
  rw [Run.ending_bind, ending_leastConsuming hall]
  cases best (alternatives.map outcome) with
  | none => exact ⟨_, rfl⟩
  | some found => exact ⟨_, rfl⟩

end Outcomes

/-! ## The order of the alternatives -/

section Order

variable {alternatives others : List (Parser α)} {s : Text}

theorem ending_nearest_failure_iff_of_perm (hperm : alternatives.Perm others)
    (h : ∀ p ∈ alternatives, ∃ o, (p s).ending = .returns o) (error : ParseError) :
    (nearest alternatives s).ending = .returns (.failure error) ↔
      (nearest others s).ending = .returns (.failure error) := by
  have h' : ∀ p ∈ others, ∃ o, (p s).ending = .returns o := fun p hp => h p (hperm.mem_iff.2 hp)
  rw [ending_nearest_eq_failure_iff h, ending_nearest_eq_failure_iff h', hperm.length_eq]
  simp only [hperm.mem_iff]

theorem exists_ending_nearest_of_perm (hperm : alternatives.Perm others)
    (h : ∀ p ∈ alternatives, ∃ o, (p s).ending = .returns o)
    (hsuffix : ∀ p ∈ alternatives, ∀ v r, (p s).ending = .returns (.success v r) → r <:+ s)
    {value : α} {rest : Text}
    (hx : (nearest alternatives s).ending = .returns (.success value rest)) :
    ∃ value', (nearest others s).ending = .returns (.success value' rest) ∧
      (∃ p ∈ alternatives, (p s).ending = .returns (.success value rest)) ∧
      ∃ p ∈ alternatives, (p s).ending = .returns (.success value' rest) := by
  have h' : ∀ p ∈ others, ∃ o, (p s).ending = .returns o := fun p hp => h p (hperm.mem_iff.2 hp)
  obtain ⟨i, ⟨p, hp, hpx⟩, hmost⟩ := (ending_nearest_eq_success_iff_preferredAt h).1 hx
  have hpmem : p ∈ alternatives := List.mem_of_getElem? hp
  obtain ⟨o, ho⟩ := exists_ending_nearest h'
  cases o with
  | failure error =>
    rw [(ending_nearest_failure_iff_of_perm hperm h error).2 ho] at hx
    cases hx
  | success value' rest' =>
    obtain ⟨i', ⟨q, hq, hqx⟩, hmost'⟩ := (ending_nearest_eq_success_iff_preferredAt h').1 ho
    have hqmem : q ∈ alternatives := hperm.mem_iff.2 (List.mem_of_getElem? hq)
    obtain ⟨j, hj⟩ := List.mem_iff_getElem?.1 hqmem
    obtain ⟨j', hj'⟩ := List.mem_iff_getElem?.1 (hperm.mem_iff.1 hpmem)
    have hbytes : bytes rest' = bytes rest :=
      Nat.le_antisymm (hmost j q value' rest' hj hqx).1 (hmost' j' p value rest hj' hpx).1
    obtain rfl : rest' = rest :=
      eq_of_suffix_of_bytes_eq (hsuffix q hqmem _ _ hqx) (hsuffix p hpmem _ _ hpx) hbytes
    exact ⟨value', ho, ⟨p, hpmem, hpx⟩, q, hqmem, hqx⟩

end Order

end Parser

open Grammar

/-- The nearest choice does what a scan that keeps the best success so far does. Where all
alternatives end in outcomes, it fails exactly if all of them fail, with a generic failure, and
otherwise it comes to the first of the successes that leave the most bytes. Where none of them
applies a bounded parser, in another order they leave the same text, and the value is again one that
is found before it. -/
theorem nearest_prefers_least_consumption :
    (∀ {α : Type} (alternatives : List (Parser α)) (s : Text),
      Parser.nearestByScan alternatives s = Parser.nearest alternatives s ∧
      ((∀ p ∈ alternatives, ∃ o, (p s).ending = .returns o) →
        (∃ o, (Parser.nearest alternatives s).ending = .returns o) ∧
        (∀ error, (Parser.nearest alternatives s).ending = .returns (.failure error) ↔
          error = .noAlternative alternatives.length (Text.preview s) ∧
            ∀ p ∈ alternatives, ∃ refusal, (p s).ending = .returns (.failure refusal)) ∧
        (∀ error, (Parser.nearest alternatives s).ending = .returns (.failure error) →
          error.kind = .genericFailure) ∧
        ∀ value rest, (Parser.nearest alternatives s).ending = .returns (.success value rest) ↔
          ∃ i, Parser.PreferredAt alternatives s i value rest)) ∧
    ∀ (rules : Rules) (n : Nat) (gs gs' : List Grammar) (s : Text), gs.Perm gs' →
      (∀ g ∈ gs, ∃ o, (g.parserWithin rules n s).ending = .returns o) →
      (∀ g ∈ gs, ∀ p marker t, ¬ Applied rules (g, s) (.before p marker, t)) →
        (∀ error, ((nearest gs).parserWithin rules n s).ending = .returns (.failure error) ↔
          ((nearest gs').parserWithin rules n s).ending = .returns (.failure error)) ∧
        ∀ value rest, Finds rules n (nearest gs) s value rest →
          ∃ value', Finds rules n (nearest gs') s value' rest ∧
            (∃ g ∈ gs, Finds rules n g s value rest) ∧ ∃ g ∈ gs, Finds rules n g s value' rest := by
  constructor
  · intro α alternatives s
    refine ⟨congrFun (Parser.nearestByScan_eq alternatives) s, ?_⟩
    intro h
    refine ⟨Parser.exists_ending_nearest h, fun _ => Parser.ending_nearest_eq_failure_iff h, ?_,
      fun _ _ => Parser.ending_nearest_eq_success_iff_preferredAt h⟩
    intro error hx
    obtain ⟨rfl, _⟩ := (Parser.ending_nearest_eq_failure_iff h).1 hx
    rfl
  · intro rules n gs gs' s hperm h hbounded
    have hnearest : ∀ gs : List Grammar, (nearest gs).parserWithin rules n =
        Parser.nearest (gs.map fun g => g.parserWithin rules n) := fun gs =>
      congrArg Parser.nearest (denoteAll_eq_map n (rules.call n) gs)
    have hparsers := hperm.map fun g => g.parserWithin rules n
    have hends : ∀ p ∈ gs.map fun g => g.parserWithin rules n, ∃ o, (p s).ending = .returns o :=
      List.forall_mem_map.2 h
    have hsuffix : ∀ p ∈ gs.map fun g => g.parserWithin rules n, ∀ v r,
        (p s).ending = .returns (.success v r) → r <:+ s := by
      rw [List.forall_mem_map]
      intro g hg v r hx
      exact (leaves_of_ending hx).isSuffix (hbounded g hg)
    unfold Finds
    rw [hnearest gs, hnearest gs']
    refine ⟨Parser.ending_nearest_failure_iff_of_perm hparsers hends, ?_⟩
    intro value rest hx
    obtain ⟨value', hx', ⟨p, hp, hpx⟩, q, hq, hqx⟩ :=
      Parser.exists_ending_nearest_of_perm hparsers hends hsuffix hx
    obtain ⟨g, hg, rfl⟩ := List.mem_map.1 hp
    obtain ⟨g', hg', rfl⟩ := List.mem_map.1 hq
    exact ⟨value', hx', ⟨g, hg, hpx⟩, g', hg', hqx⟩

namespace Grammar

def oneOrMore : List Grammar := [take 2, take 1, map (fun _ => .unit) anyChar, searchFor ['z']]

theorem oneOrMore_applied {g : Grammar} {s : Text} (hg : g ∈ oneOrMore) {b : Grammar × Text}
    (h : Applied noRules (g, s) b) :
    (∃ scanner, b.1 = leaf scanner) ∨ b.1 = map (fun _ => .unit) anyChar := by
  apply forall_applied_of_closed (S := fun g => (∃ scanner, g = leaf scanner) ∨
    g = map (fun _ => .unit) anyChar) _ _ b h
  · simp only [oneOrMore, List.mem_cons, List.not_mem_nil, or_false] at hg
    rcases hg with rfl | rfl | rfl | rfl
    · exact Or.inl ⟨_, rfl⟩
    · exact Or.inl ⟨_, rfl⟩
    · exact Or.inr rfl
    · exact Or.inl ⟨_, rfl⟩
  · rintro g s a (⟨scanner, rfl⟩ | rfl) ha
    · cases ha
    · cases ha
      exact Or.inl ⟨_, rfl⟩

/-- Of the two ways to consume one character the first in the list is taken, and from the end of
the list the other; what is left is the same. -/
theorem oneOrMore_prefers_least_consumption :
    (∀ g ∈ oneOrMore, ∃ o, (g.parserWithin noRules 0 ['é', 'b', 'c']).ending = .returns o) ∧
    (∀ g ∈ oneOrMore, ∀ p marker t,
      ¬ Applied noRules (g, ['é', 'b', 'c']) (.before p marker, t)) ∧
    Finds noRules 0 (nearest oneOrMore) ['é', 'b', 'c'] (.text ['é']) ['b', 'c'] ∧
    ∃ value', Finds noRules 0 (nearest oneOrMore.reverse) ['é', 'b', 'c'] value' ['b', 'c'] ∧
      ∃ g ∈ oneOrMore, Finds noRules 0 g ['é', 'b', 'c'] value' ['b', 'c'] := by
  have hends : ∀ g ∈ oneOrMore, ∃ o,
      (g.parserWithin noRules 0 ['é', 'b', 'c']).ending = .returns o := by
    simp only [oneOrMore, List.forall_mem_cons]
    exact ⟨⟨_, rfl⟩, ⟨_, rfl⟩, ⟨_, rfl⟩, ⟨_, rfl⟩, nofun⟩
  have hbounded : ∀ g ∈ oneOrMore, ∀ p marker t,
      ¬ Applied noRules (g, ['é', 'b', 'c']) (.before p marker, t) := by
    intro g hg p marker t h
    rcases oneOrMore_applied hg h with ⟨_, he⟩ | he
    · cases he
    · cases he
  -- The second alternative leaves two characters; the third does so too, but stands behind it.
  have hfinds : Finds noRules 0 (nearest oneOrMore) ['é', 'b', 'c'] (.text ['é']) ['b', 'c'] := by
    have hparsers : ∀ p ∈ oneOrMore.map fun g => g.parserWithin noRules 0, ∃ o,
        (p ['é', 'b', 'c']).ending = .returns o := List.forall_mem_map.2 hends
    have hchoice := (nearest_prefers_least_consumption.1 _ _).2 hparsers
    refine (hchoice.2.2.2 _ _).2 ⟨1, ⟨_, rfl, rfl⟩, ?_⟩
    rintro (_ | _ | _ | _ | j) q v r hq hx
    · cases hq
      cases hx
      exact ⟨by decide, fun he => absurd he (by decide)⟩
    · cases hq
      cases hx
      exact ⟨Nat.le_refl _, fun _ => Nat.le_refl 1⟩
    · cases hq
      cases hx
      exact ⟨Nat.le_refl _, fun _ => Nat.le_succ 1⟩
    · cases hq
      cases hx
    · cases hq
  have horder := nearest_prefers_least_consumption.2 noRules 0 oneOrMore oneOrMore.reverse
    ['é', 'b', 'c'] oneOrMore.reverse_perm.symm hends hbounded
  obtain ⟨value', hx, _, hvalue'⟩ := horder.2 _ _ hfinds
  exact ⟨hends, hbounded, hfinds, value', hx, hvalue'⟩

end Grammar

end TextGrammar
