import Mathlib.Order.WellFounded
import TextGrammar.Proofs.Application
import TextGrammar.Proofs.Finds
import TextGrammar.Proofs.Nearest
import TextGrammar.Proofs.Occurrences

/-!
# The nearest of several searches

A search leaves what follows the occurrence it finds, so the nearest of several searches takes the
occurrence that ends first, whether or not another begins before it. The two differ only inside a
string of the list: the earliest occurrence in a text is found exactly if it is found in the string
that occurs there.
-/

namespace TextGrammar.Grammar

open Text

def firstOf (needles : List Text) : Grammar := nearest (needles.map searchFor)

/-- The occurrence between `before` and `after` ends before any of a string listed earlier, and no
later than any other. -/
def EndsFirst (needles : List Text) (s before after : Text) : Prop :=
  ∃ earlier needle later, needles = earlier ++ needle :: later ∧ s = before ++ needle ++ after ∧
    (∀ other ∈ earlier, ∀ b a, s = b ++ other ++ a → a.length < after.length) ∧
    ∀ other ∈ needle :: later, ∀ b a, s = b ++ other ++ a → a.length ≤ after.length

/-- One of the strings occurs behind `before`, and none of them any earlier. -/
def BeginsFirst (needles : List Text) (s before : Text) : Prop :=
  (∃ needle ∈ needles, ∃ after, s = before ++ needle ++ after) ∧
    ∀ other ∈ needles, ∀ b a, s = b ++ other ++ a → before.length ≤ b.length

/-- The text before the earliest occurrence is found, and an occurrence there is skipped. -/
def FindsEarliest (rules : Rules) (n : Nat) (needles : List Text) (s : Text) : Prop :=
  ∃ before needle after, BeginsFirst needles s before ∧ needle ∈ needles ∧
    s = before ++ needle ++ after ∧ Finds rules n (firstOf needles) s (.text before) after

variable {rules : Rules} {n : Nat} {needles : List Text} {needle other s t a b before after : Text}

theorem length_before_le_iff (hs : s = before ++ needle ++ after) (h : s = b ++ needle ++ a) :
    before.length ≤ b.length ↔ a.length ≤ after.length := by
  have hlength := congrArg List.length (hs.symm.trans h)
  simp only [List.length_append] at hlength
  omega

section Outcomes

def search (s needle : Text) : Outcome Value := ((Scanner.searchFor needle).map .text).scan s

theorem search_eq_success_iff {value : Value} {rest : Text} :
    search s needle = .success value rest ↔
      ∃ before, splitAtFirst? needle s = some (before, rest) ∧ value = .text before := by
  unfold search
  simp only [Scanner.map, Scanner.searchFor]
  cases splitAtFirst? needle s with
  | none => simp
  | some found => simp [Prod.ext_iff, and_comm, eq_comm]

theorem finds_firstOf_iff_best {value : Value} {rest : Text} :
    Finds rules n (firstOf needles) s value rest ↔
      Parser.best (needles.map (search s)) = some (value, rest) := by
  apply Parser.ending_nearest_eq_success_iff
  rw [denoteAll_eq_map, List.map_map]
  simp only [List.forall₂_map_left_iff, List.forall₂_map_right_iff, List.forall₂_same]
  intro needle _
  rfl

theorem exists_finds_firstOf (h : ∃ needle ∈ needles, needle <:+: s) :
    ∃ before after, ∀ rules n, Finds rules n (firstOf needles) s (.text before) after := by
  obtain ⟨needle, hmem, hocc⟩ := h
  obtain ⟨b, a, hfirst⟩ := exists_splitAtFirst? hocc
  have hsearch : search s needle = .success (.text b) a := search_eq_success_iff.2 ⟨b, hfirst, rfl⟩
  cases hbest : Parser.best (needles.map (search s)) with
  | none =>
    obtain ⟨error, herror⟩ := Parser.best_eq_none_iff.1 hbest _ (List.mem_map_of_mem hmem)
    rw [hsearch] at herror
    cases herror
  | some found =>
    obtain ⟨value, rest⟩ := found
    obtain ⟨earlier, later, hall, _⟩ := Parser.best_eq_some_iff.1 hbest
    have hfound : .success value rest ∈ needles.map (search s) := by
      rw [hall]
      simp
    obtain ⟨needle', _, hneedle'⟩ := List.mem_map.1 hfound
    obtain ⟨before, _, rfl⟩ := search_eq_success_iff.1 hneedle'
    exact ⟨before, rest, fun _ _ => finds_firstOf_iff_best.2 hbest⟩

/-- A search finds the occurrence that leaves most, so what it leaves stands for all occurrences. -/
theorem forall_search_iff {P : Text → Prop} (hP : ∀ a a', a <:+ a' → P a' → P a) :
    (∀ value rest, search s other = .success value rest → P rest) ↔
      ∀ b a, s = b ++ other ++ a → P a := by
  constructor
  · intro h b a hs
    obtain ⟨b', a', hfirst⟩ := exists_splitAtFirst? ⟨b, a, hs.symm⟩
    have hs' := splitAtFirst?_eq_some hfirst
    have hle : a.length ≤ a'.length :=
      (length_before_le_iff hs' hs).1 (length_le_of_splitAtFirst? hfirst hs)
    have hsuffix : a <:+ a' :=
      List.suffix_of_suffix_length_le ⟨b ++ other, hs.symm⟩ ⟨b' ++ other, hs'.symm⟩ hle
    exact hP a a' hsuffix (h _ _ (search_eq_success_iff.2 ⟨b', hfirst, rfl⟩))
  · intro h value rest hsearch
    obtain ⟨b, hfirst, _⟩ := search_eq_success_iff.1 hsearch
    exact h b rest (splitAtFirst?_eq_some hfirst)

theorem forall_mem_search_iff {P Q : Text → Prop} (hP : ∀ a a', a <:+ a' → P a' → P a)
    (hPQ : ∀ a, a <:+ s → (P a ↔ Q a)) (others : List Text) :
    (∀ value rest, .success value rest ∈ others.map (search s) → P rest) ↔
      ∀ other ∈ others, ∀ b a, s = b ++ other ++ a → Q a := by
  constructor
  · intro h other hmem b a hs
    apply (hPQ a ⟨b ++ other, hs.symm⟩).1
    refine (forall_search_iff hP).1 ?_ b a hs
    intro value rest hsearch
    exact h value rest (hsearch ▸ List.mem_map_of_mem hmem)
  · intro h value rest hfound
    obtain ⟨other, hmem, hsearch⟩ := List.mem_map.1 hfound
    refine (forall_search_iff hP).2 ?_ value rest hsearch
    intro b a hs
    exact (hPQ a ⟨b ++ other, hs.symm⟩).2 (h other hmem b a hs)

theorem bestAt_map_search_iff {earlier later : List Text} (hs : s = before ++ needle ++ after) :
    Parser.BestAt (earlier.map (search s)) after (later.map (search s)) ↔
      (∀ other ∈ earlier, ∀ b a, s = b ++ other ++ a → a.length < after.length) ∧
        ∀ other ∈ later, ∀ b a, s = b ++ other ++ a → a.length ≤ after.length := by
  have hafter : after <:+ s := ⟨before ++ needle, hs.symm⟩
  have hbytes : ∀ a a' : Text, a <:+ a' → bytes a ≤ bytes a' := fun _ _ ha =>
    bytes_le_of_infix ha.isInfix
  refine and_congr (forall_mem_search_iff ?_ ?_ earlier) (forall_mem_search_iff ?_ ?_ later)
  · intro a a' ha hlt
    exact Nat.lt_of_le_of_lt (hbytes a a' ha) hlt
  · intro a ha
    have hle := bytes_le_iff_of_suffix hafter ha
    omega
  · intro a a' ha hle
    exact Nat.le_trans (hbytes a a' ha) hle
  · intro a ha
    exact bytes_le_iff_of_suffix ha hafter

theorem finds_firstOf_iff :
    Finds rules n (firstOf needles) s (.text before) after ↔
      EndsFirst needles s before after := by
  rw [finds_firstOf_iff_best, Parser.best_eq_some_iff]
  constructor
  · rintro ⟨earlier, later, hall, hbest⟩
    obtain ⟨earlier, others, rfl, rfl, hothers⟩ := List.map_eq_append_iff.1 hall
    obtain ⟨needle, later, rfl, hneedle, rfl⟩ := List.map_eq_cons_iff.1 hothers
    obtain ⟨_, hfirst, heq⟩ := search_eq_success_iff.1 hneedle
    cases heq
    obtain ⟨hs, hmost⟩ := splitAtFirst?_eq_some_iff.1 hfirst
    obtain ⟨hearlier, hlater⟩ := (bestAt_map_search_iff hs).1 hbest
    refine ⟨earlier, needle, later, rfl, hs, hearlier, List.forall_mem_cons.2 ⟨?_, hlater⟩⟩
    intro b a hb
    exact (length_before_le_iff hs hb).1 (hmost b a hb)
  · rintro ⟨earlier, needle, later, rfl, hs, hearlier, hall⟩
    obtain ⟨hneedle, hlater⟩ := List.forall_mem_cons.1 hall
    have hfirst : splitAtFirst? needle s = some (before, after) := by
      refine splitAtFirst?_eq_some_iff.2 ⟨hs, ?_⟩
      intro b a hb
      exact (length_before_le_iff hs hb).2 (hneedle b a hb)
    have hsearch : search s needle = .success (.text before) after :=
      search_eq_success_iff.2 ⟨before, hfirst, rfl⟩
    refine ⟨earlier.map (search s), later.map (search s), ?_,
      (bestAt_map_search_iff hs).2 ⟨hearlier, hlater⟩⟩
    rw [List.map_append, List.map_cons, hsearch]

end Outcomes

section Places

theorem EndsFirst.exists_mem (h : EndsFirst needles s before after) :
    ∃ needle ∈ needles, s = before ++ needle ++ after := by
  obtain ⟨earlier, needle, later, rfl, hs, _⟩ := h
  exact ⟨needle, by simp, hs⟩

theorem EndsFirst.length_le (h : EndsFirst needles s before after) (hmem : other ∈ needles)
    (hs : s = b ++ other ++ a) : a.length ≤ after.length := by
  obtain ⟨earlier, needle, later, rfl, _, hearlier, hlater⟩ := h
  rcases List.mem_append.1 hmem with hmem | hmem
  · exact Nat.le_of_lt (hearlier other hmem b a hs)
  · exact hlater other hmem b a hs

theorem exists_beginsFirst (h : ∃ needle ∈ needles, needle <:+: s) :
    ∃ before, BeginsFirst needles s before := by
  obtain ⟨needle, hmem, b, a, hs⟩ := h
  obtain ⟨before, hoccurs, hfirst⟩ := (measure List.length).wf.has_min
    {b : Text | ∃ needle ∈ needles, ∃ a, s = b ++ needle ++ a} ⟨b, needle, hmem, a, hs.symm⟩
  refine ⟨before, hoccurs, ?_⟩
  intro other hother b a hb
  exact Nat.le_of_not_lt (hfirst b ⟨other, hother, a, hb⟩)

theorem BeginsFirst.unique (hb : BeginsFirst needles s b) (h : BeginsFirst needles s before) :
    before = b := by
  obtain ⟨⟨needle, hmem, after, hs⟩, hbefore⟩ := h
  obtain ⟨⟨other, hother, a, hs'⟩, hb⟩ := hb
  have hlength : before.length = b.length :=
    Nat.le_antisymm (hbefore other hother b a hs') (hb needle hmem before after hs)
  rw [hs, List.append_assoc, List.append_assoc] at hs'
  exact (List.append_inj hs' hlength).1

theorem findsEarliest_iff (hb : BeginsFirst needles s b) :
    FindsEarliest rules n needles s ↔ ∃ after, EndsFirst needles s b after := by
  constructor
  · rintro ⟨before, needle, after, h, _, _, hfinds⟩
    rw [hb.unique h] at hfinds
    exact ⟨after, finds_firstOf_iff.1 hfinds⟩
  · rintro ⟨after, h⟩
    obtain ⟨needle, hmem, hs⟩ := h.exists_mem
    exact ⟨b, needle, after, hb, hmem, hs, finds_firstOf_iff.2 h⟩

theorem findsEarliest_iff_beginsFirst
    (h : Finds rules n (firstOf needles) s (.text before) after) :
    FindsEarliest rules n needles s ↔ BeginsFirst needles s before := by
  constructor
  · rintro ⟨b, _, a, hb, _, _, hfinds⟩
    cases (Ending.returns.inj (h.symm.trans hfinds) : Outcome.success _ _ = .success _ _)
    exact hb
  · intro hb
    exact (findsEarliest_iff hb).2 ⟨after, finds_firstOf_iff.1 h⟩

theorem eq_append_iff {v r : Text} :
    b ++ t ++ a = b ++ v ++ other ++ (r ++ a) ↔ t = v ++ other ++ r := by
  have hassoc : b ++ v ++ other ++ (r ++ a) = b ++ (v ++ other ++ r) ++ a := by
    simp only [List.append_assoc]
  rw [hassoc, List.append_left_inj, List.append_right_inj]

/-- If `t` stands where the earliest occurrence begins, an occurrence of any of the strings ends
behind it or lies within it. -/
theorem BeginsFirst.ends_behind_or_within {b' a' : Text} (hb : BeginsFirst needles (b ++ t ++ a) b)
    (hmem : other ∈ needles) (h : b ++ t ++ a = b' ++ other ++ a') :
    a'.length < a.length ∨ ∃ left right, t = left ++ other ++ right ∧ a' = right ++ a := by
  rcases Nat.lt_or_ge a'.length a.length with hlt | hle
  · exact Or.inl hlt
  · have hlength := congrArg List.length h
    simp only [List.length_append] at hlength
    have hend : (b' ++ other).length ≤ (b ++ t).length := by
      simp only [List.length_append]
      omega
    obtain ⟨left, right, _, ht, ha⟩ :=
      exists_of_nested_occurrences rfl h (hb.2 other hmem b' a' h) hend
    exact Or.inr ⟨left, right, ht, ha⟩

theorem forall_occurrence_append_iff {k : Nat} (hk : k ≤ 1)
    (hb : BeginsFirst needles (b ++ t ++ a) b) (r : Text) (hmem : other ∈ needles) :
    (∀ b' a', b ++ t ++ a = b' ++ other ++ a' → a'.length + k ≤ (r ++ a).length) ↔
      ∀ b' a', t = b' ++ other ++ a' → a'.length + k ≤ r.length := by
  constructor
  · intro h b' a' ht
    have hle := h (b ++ b') (a' ++ a) (eq_append_iff.2 ht)
    simp only [List.length_append] at hle
    omega
  · intro h b' a' hs
    rw [List.length_append]
    rcases hb.ends_behind_or_within hmem hs with hlt | ⟨left, right, ht, rfl⟩
    · omega
    · have hle := h left right ht
      rw [List.length_append]
      omega

theorem endsFirst_append_iff {v r : Text} (hb : BeginsFirst needles (b ++ t ++ a) b) :
    EndsFirst needles (b ++ t ++ a) (b ++ v) (r ++ a) ↔ EndsFirst needles t v r := by
  constructor
  · rintro ⟨earlier, needle, later, rfl, hs, hearlier, hlater⟩
    refine ⟨earlier, needle, later, rfl, eq_append_iff.1 hs, ?_, ?_⟩
    · intro other hmem
      have hiff := forall_occurrence_append_iff (Nat.le_refl 1) hb r (List.mem_append_left _ hmem)
      exact hiff.1 (hearlier other hmem)
    · intro other hmem
      have hiff := forall_occurrence_append_iff (Nat.zero_le 1) hb r (List.mem_append_right _ hmem)
      exact hiff.1 (hlater other hmem)
  · rintro ⟨earlier, needle, later, rfl, ht, hearlier, hlater⟩
    refine ⟨earlier, needle, later, rfl, eq_append_iff.2 ht, ?_, ?_⟩
    · intro other hmem
      have hiff := forall_occurrence_append_iff (Nat.le_refl 1) hb r (List.mem_append_left _ hmem)
      exact hiff.2 (hearlier other hmem)
    · intro other hmem
      have hiff := forall_occurrence_append_iff (Nat.zero_le 1) hb r (List.mem_append_right _ hmem)
      exact hiff.2 (hlater other hmem)

theorem beginsFirst_nil (hmem : t ∈ needles) : BeginsFirst needles t [] :=
  ⟨⟨t, hmem, [], by simp⟩, fun _ _ _ _ _ => Nat.zero_le _⟩

theorem findsEarliest_append_iff (hmem : t ∈ needles) (hb : BeginsFirst needles (b ++ t ++ a) b) :
    FindsEarliest rules n needles (b ++ t ++ a) ↔ FindsEarliest rules n needles t := by
  rw [findsEarliest_iff hb, findsEarliest_iff (beginsFirst_nil hmem)]
  constructor
  · rintro ⟨after, h⟩
    obtain ⟨needle, _, hs⟩ := h.exists_mem
    have hsuffix : a <:+ after :=
      List.suffix_of_suffix_length_le ⟨b ++ t, rfl⟩ ⟨b ++ needle, hs.symm⟩ (h.length_le hmem rfl)
    obtain ⟨r, rfl⟩ := hsuffix
    refine ⟨r, (endsFirst_append_iff hb).1 ?_⟩
    rw [List.append_nil]
    exact h
  · rintro ⟨r, h⟩
    have hends := (endsFirst_append_iff hb).2 h
    rw [List.append_nil] at hends
    exact ⟨r ++ a, hends⟩

theorem findsEarliest_of_prefixes (hmem : t ∈ needles)
    (h : ∀ needle ∈ needles, needle <:+: t → needle <+: t) : FindsEarliest rules n needles t := by
  obtain ⟨before, after, hfinds⟩ := exists_finds_firstOf ⟨t, hmem, List.infix_refl t⟩
  have hends : EndsFirst needles t before after := finds_firstOf_iff.1 (hfinds noRules 0)
  obtain ⟨needle, hneedle, ht⟩ := hends.exists_mem
  obtain ⟨a, ha⟩ := h needle hneedle ⟨before, after, ht.symm⟩
  have hle : a.length ≤ after.length := hends.length_le hneedle (b := []) ha.symm
  have hnil : before = [] := by
    have hlength := congrArg List.length (ha.trans ht)
    simp only [List.length_append] at hlength
    exact List.length_eq_zero_iff.1 (by omega)
  subst hnil
  exact (findsEarliest_iff (beginsFirst_nil hmem)).2 ⟨after, hends⟩

end Places

/-- Where one of the strings occurs, the nearest search succeeds, at the occurrence that ends first
and of these at the one of the string listed first. That it is an earliest one depends only on the
string that stands there, and it is one if no string of the list occurs in another elsewhere than
at its beginning. -/
theorem firstOf_finds_occurrence_ending_first (rules : Rules) (n : Nat) (needles : List Text)
    (input : Text) (h : ∃ needle ∈ needles, needle <:+: input) :
    (∃ before after, Finds rules n (firstOf needles) input (.text before) after) ∧
    (∀ before after, Finds rules n (firstOf needles) input (.text before) after ↔
      EndsFirst needles input before after) ∧
    (∀ needle ∈ needles, ∀ before after, input = before ++ needle ++ after →
      BeginsFirst needles input before →
        (FindsEarliest rules n needles input ↔ FindsEarliest rules n needles needle)) ∧
    ((∀ s ∈ needles, ∀ t ∈ needles, s <:+: t → s <+: t) → FindsEarliest rules n needles input) := by
  refine ⟨?_, fun before after => finds_firstOf_iff, ?_, ?_⟩
  · obtain ⟨before, after, hfinds⟩ := exists_finds_firstOf h
    exact ⟨before, after, hfinds rules n⟩
  · rintro needle hmem before after rfl hb
    exact findsEarliest_append_iff hmem hb
  · intro hprefixes
    obtain ⟨b, hb⟩ := exists_beginsFirst h
    obtain ⟨needle, hmem, a, rfl⟩ := hb.1
    apply (findsEarliest_append_iff hmem hb).2
    exact findsEarliest_of_prefixes hmem fun other hother => hprefixes other hother needle hmem

/-- Strings that overlap, begin alike and begin where another ends. -/
theorem firstOf_finds_ab_before_ca :
    (∃ needle ∈ [['c', 'a'], ['a', 'b', 'c'], ['a', 'b']], needle <:+: ['x', 'a', 'b', 'c', 'a']) ∧
      EndsFirst [['c', 'a'], ['a', 'b', 'c'], ['a', 'b']] ['x', 'a', 'b', 'c', 'a'] ['x']
        ['c', 'a'] ∧
      FindsEarliest noRules 0 [['c', 'a'], ['a', 'b', 'c'], ['a', 'b']]
        ['x', 'a', 'b', 'c', 'a'] := by
  have h : ∃ needle ∈ [['c', 'a'], ['a', 'b', 'c'], ['a', 'b']],
      needle <:+: ['x', 'a', 'b', 'c', 'a'] := by decide
  obtain ⟨_, hends, _, hearliest⟩ := firstOf_finds_occurrence_ending_first noRules 0 _ _ h
  exact ⟨h, (hends _ _).1 rfl, hearliest (by decide)⟩

/-- A string that begins later but ends earlier is found before the earliest one, and so is one that
begins later, ends together with it and is listed first. -/
theorem firstOf_misses_earliest_occurrence :
    (∃ needle ∈ [['a', 'b', 'c'], ['b']], needle <:+: ['a', 'b', 'c']) ∧
      Finds noRules 0 (firstOf [['a', 'b', 'c'], ['b']]) ['a', 'b', 'c'] (.text ['a']) ['c'] ∧
      ¬ FindsEarliest noRules 0 [['a', 'b', 'c'], ['b']] ['a', 'b', 'c'] ∧
      Finds noRules 0 (firstOf [['c'], ['b', 'c']]) ['a', 'b', 'c'] (.text ['a', 'b']) [] ∧
      ¬ FindsEarliest noRules 0 [['c'], ['b', 'c']] ['a', 'b', 'c'] := by
  have hb : Finds noRules 0 (firstOf [['a', 'b', 'c'], ['b']]) ['a', 'b', 'c'] (.text ['a'])
      ['c'] := rfl
  have hc : Finds noRules 0 (firstOf [['c'], ['b', 'c']]) ['a', 'b', 'c'] (.text ['a', 'b'])
      [] := rfl
  refine ⟨by decide, hb, ?_, hc, ?_⟩
  · rw [findsEarliest_iff_beginsFirst hb]
    intro h
    exact absurd (h.2 ['a', 'b', 'c'] (by decide) [] [] rfl) (by decide)
  · rw [findsEarliest_iff_beginsFirst hc]
    intro h
    exact absurd (h.2 ['b', 'c'] (by decide) ['a'] [] rfl) (by decide)

end TextGrammar.Grammar
