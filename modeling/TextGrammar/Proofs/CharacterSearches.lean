import TextGrammar.Proofs.Allowances
import TextGrammar.Proofs.Finds
import TextGrammar.Proofs.Occurrences
import TextGrammar.Proofs.OffsetScanners

/-!
# Searches character by character

A search for a string can be written as a loop over characters that stops where the string begins,
or at the end of the text, with the string behind it. One loop asks at each place whether the string
begins there, the other one has characters where it does not. Both collect the text before the first
occurrence, and where there is none they have come to the end of the text, where the string is not.
-/

namespace TextGrammar.Grammar

open Text

def searchUntil (needle : Text) : Grammar :=
  pipe [manyUntil anyChar (literal needle), literal needle]

def searchPast (needle : Text) : Grammar := pipe [many (notLiteral needle), literal needle]

/-- What a loop over characters collects from a text, up to where `needle` begins or to the end, and
what it leaves. -/
inductive Collects (needle : Text) : Text → Text → Text → Prop
  | stop {s : Text} : needle <+: s → Collects needle s [] s
  | finish : ¬ needle <+: [] → Collects needle [] [] []
  | next {c : Char} {s collected rest : Text} :
    ¬ needle <+: c :: s → Collects needle s collected rest →
      Collects needle (c :: s) (c :: collected) rest

variable {rules : Rules} {n m : Nat} {g : Grammar} {needle s before after collected rest : Text}

/-! ## Loops over characters -/

theorem collects_of_first (hfirst : ∀ b a, before ++ needle ++ after = b ++ needle ++ a →
    before.length ≤ b.length) :
    Collects needle (before ++ needle ++ after) before (needle ++ after) := by
  induction before with
  | nil => exact .stop (List.prefix_append needle after)
  | cons c before ih =>
    refine .next ?_ (ih ?_)
    -- If `needle` began here, this would be an occurrence before the first one.
    · rintro ⟨a, ha⟩
      exact Nat.not_succ_le_zero _ (hfirst [] a ha.symm)
    · intro b a h
      exact Nat.le_of_succ_le_succ (hfirst (c :: b) a (congrArg (c :: ·) h))

theorem collects_of_absent (h : ¬ needle <:+: s) : Collects needle s s [] := by
  induction s with
  | nil => exact .finish fun hp => h hp.isInfix
  | cons c s ih =>
    refine .next (fun hp => h hp.isInfix) (ih fun hs => h ?_)
    exact hs.trans (List.suffix_cons c s).isInfix

theorem finds_anyChar (c : Char) (s : Text) :
    (anyChar.parserWithin rules n (c :: s)).ending = .returns (.success (.char c) s) := rfl

theorem ending_manyUntil_of_collects (h : Collects needle s collected rest) {rounds : Nat}
    (hr : s.length < rounds) :
    ((anyChar.parserWithin rules n).manyUntil ((literal needle).parserWithin rules n) rounds
      s).ending = .returns (.success (collected.map .char) rest) := by
  induction h generalizing rounds with
  | stop hs =>
    obtain ⟨rounds, rfl⟩ := Nat.exists_eq_succ_of_ne_zero (Nat.ne_zero_of_lt hr)
    obtain ⟨after, rfl⟩ := hs
    rw [Parser.manyUntil_succ, Run.ending_bind, finds_literal needle after]
    rfl
  | finish hs =>
    obtain ⟨rounds, rfl⟩ := Nat.exists_eq_succ_of_ne_zero (Nat.ne_zero_of_lt hr)
    obtain ⟨error, herror⟩ := fails_literal hs
    rw [Parser.manyUntil_succ, Run.ending_bind, herror]
    rfl
  | next hs _ ih =>
    obtain ⟨rounds, rfl⟩ := Nat.exists_eq_succ_of_ne_zero (Nat.ne_zero_of_lt hr)
    obtain ⟨error, herror⟩ := fails_literal hs
    rw [Parser.manyUntil_succ, Run.ending_bind, herror]
    dsimp only
    rw [Run.ending_bind, finds_anyChar]
    dsimp only
    rw [Run.ending_bind, ih (Nat.lt_of_succ_lt_succ hr)]
    rfl

theorem ending_repeatWithin_of_collects (h : Collects needle s collected rest) {most : Nat}
    (hm : s.length < most) :
    (((notLiteral needle).parserWithin rules n).repeatWithin 0 most s).ending =
      .returns (.success (collected.map .char) rest) := by
  induction h generalizing most with
  | stop hs =>
    obtain ⟨most, rfl⟩ := Nat.exists_eq_succ_of_ne_zero (Nat.ne_zero_of_lt hm)
    obtain ⟨error, herror⟩ := fails_notLiteral hs
    exact Parser.ending_repeatWithin_of_failure herror
  | finish hs =>
    obtain ⟨most, rfl⟩ := Nat.exists_eq_succ_of_ne_zero (Nat.ne_zero_of_lt hm)
    obtain ⟨error, herror⟩ := fails_notLiteral_nil hs
    exact Parser.ending_repeatWithin_of_failure herror
  | next hs _ ih =>
    obtain ⟨most, rfl⟩ := Nat.exists_eq_succ_of_ne_zero (Nat.ne_zero_of_lt hm)
    have hothers := ih (Nat.lt_of_succ_lt_succ hm)
    exact Parser.ending_repeatWithin_of_success (finds_notLiteral hs) hothers

theorem finds_manyUntil_of_collects (h : Collects needle s collected rest) (hn : s.length < n) :
    Finds rules n (manyUntil anyChar (literal needle)) s (.list (collected.map .char)) rest :=
  Parser.ending_map_of_success _ (ending_manyUntil_of_collects h hn)

theorem finds_many_of_collects (h : Collects needle s collected rest)
    (hs : s.length < Text.wordLimit - 1) :
    Finds rules n (many (notLiteral needle)) s (.list (collected.map .char)) rest := by
  apply Parser.ending_map_of_success
  rw [Parser.repeated_of_le (Nat.zero_le _)]
  exact ending_repeatWithin_of_collects h hs

/-! ## Searches -/

/-- The grammar finds a value made of the text before the first occurrence of `needle` and leaves
the text behind it, and it fails if there is none. -/
structure SearchesFor (rules : Rules) (needle s : Text) (found : Text → Value) (g : Grammar) :
    Prop where
  finds : ∀ before after, splitAtFirst? needle s = some (before, after) →
    ∃ n, Finds rules n g s (found before) after
  fails : ¬ needle <:+: s → ∃ n, Fails rules n g s

variable {found : Text → Value}

theorem SearchesFor.finds_iff (h : SearchesFor rules needle s found g) (value : Value)
    (rest : Text) : (∃ n, Finds rules n g s value rest) ↔
      ∃ before, value = found before ∧ splitAtFirst? needle s = some (before, rest) := by
  constructor
  · rintro ⟨n, hvalue⟩
    by_cases hoccurs : needle <:+: s
    · obtain ⟨before, after, hfirst⟩ := exists_splitAtFirst? hoccurs
      obtain ⟨m, hfound⟩ := h.finds before after hfirst
      cases returns_unique hvalue hfound
      exact ⟨before, rfl, hfirst⟩
    · obtain ⟨m, error, hfails⟩ := h.fails hoccurs
      cases returns_unique hvalue hfails
  · rintro ⟨before, rfl, hfirst⟩
    exact h.finds before rest hfirst

theorem SearchesFor.fails_iff (h : SearchesFor rules needle s found g) :
    (∃ n, Fails rules n g s) ↔ ¬ needle <:+: s := by
  refine ⟨?_, h.fails⟩
  rintro ⟨n, error, hfails⟩ hoccurs
  obtain ⟨before, after, hfirst⟩ := exists_splitAtFirst? hoccurs
  obtain ⟨m, hfound⟩ := h.finds before after hfirst
  cases returns_unique hfails hfound

theorem searchesFor_searchFor : SearchesFor rules needle s .text (searchFor needle) where
  finds before after hfirst := by
    refine ⟨0, finds_leaf ?_⟩
    simp only [Scanner.map, Scanner.searchFor, hfirst, Outcome.map_success]
  fails h := by
    have hnone : splitAtFirst? needle s = none := splitAtFirst?_eq_none_iff.2 h
    have hscan : ((Scanner.searchFor needle).map Value.text).scan s =
        .failure (.absent needle (preview s)) := by
      simp only [Scanner.map, Scanner.searchFor, hnone, Outcome.map_failure]
    exact ⟨0, fails_leaf hscan⟩

theorem searchesFor_pipe {loop : Grammar} (hloop : ∀ collected rest,
    Collects needle s collected rest →
      Finds rules n loop s (.list (collected.map .char)) rest) :
    SearchesFor rules needle s (fun before => .list [.list (before.map .char), .text needle])
      (pipe [loop, literal needle]) where
  finds before after hfirst := by
    obtain ⟨rfl, hleast⟩ := splitAtFirst?_eq_some_iff.1 hfirst
    have hbefore := hloop _ _ (collects_of_first hleast)
    exact ⟨n, finds_pipe (.cons hbefore (.cons (finds_literal needle after) .nil))⟩
  fails h := by
    -- The loop comes to the end of the text, where only the empty string could be.
    have hall := hloop _ _ (collects_of_absent h)
    have hend : ¬ needle <+: [] := fun hp => h (hp.isInfix.trans List.nil_infix)
    exact ⟨n, fails_pipe (.tail hall (.head (fails_literal hend)))⟩

/-- A search for a string finds the text before its first occurrence, with none that begins earlier,
not even one that overlaps it, and leaves the text behind it. The searches that collect characters
find the same characters in a list and leave the same text, and each of the three fails exactly if
the string does not occur. The search that cuts the text at offsets is the same parser as the one
that splits it into characters. -/
theorem searches_by_character_agree (rules : Rules) (needle input : Text)
    (h : input.length < wordLimit - 1) :
    (∀ value rest, (∃ n, Finds rules n (searchFor needle) input value rest) ↔
      ∃ before, value = .text before ∧ input = before ++ needle ++ rest ∧
        ∀ b a, input = b ++ needle ++ a → before.length ≤ b.length) ∧
    (∀ g ∈ [searchUntil needle, searchPast needle], ∀ value rest,
      (∃ n, Finds rules n g input value rest) ↔
        ∃ collected : Text, value = .list [.list (collected.map .char), .text needle] ∧
          ∃ n, Finds rules n (searchFor needle) input (.text collected) rest) ∧
    (∀ g ∈ [searchFor needle, searchUntil needle, searchPast needle],
      (∃ n, Fails rules n g input) ↔ ¬ needle <:+: input) ∧
    ∀ n, (Parser.searchForByOffset needle).map Value.text =
      (searchFor needle).parserWithin rules n := by
  have hfor : SearchesFor rules needle input .text (searchFor needle) := searchesFor_searchFor
  have hloops : ∀ g ∈ [searchUntil needle, searchPast needle], SearchesFor rules needle input
      (fun before => .list [.list (before.map .char), .text needle]) g := by
    intro g hg
    simp only [List.mem_cons, List.not_mem_nil, or_false] at hg
    rcases hg with rfl | rfl
    · exact searchesFor_pipe fun _ _ hc => finds_manyUntil_of_collects hc (Nat.lt_succ_self _)
    · exact searchesFor_pipe (n := 0) fun _ _ hc => finds_many_of_collects hc h
  refine ⟨?_, ?_, ?_, ?_⟩
  · intro value rest
    rw [hfor.finds_iff value rest]
    simp only [splitAtFirst?_eq_some_iff]
  · intro g hg value rest
    rw [(hloops g hg).finds_iff value rest]
    refine exists_congr fun before => and_congr_right fun _ => ?_
    rw [hfor.finds_iff]
    simp
  · intro g hg
    rcases List.mem_cons.1 hg with rfl | hg
    · exact hfor.fails_iff
    · exact (hloops g hg).fails_iff
  · intro n
    rw [Parser.searchForByOffset_eq]
    exact Parser.map_ofScanner Value.text (Scanner.searchFor needle)

/-- Of two occurrences that overlap the first one is found, and a character is left that belongs to
both. -/
theorem searches_by_character_agree_overlapping :
    ['a', 'é', 'é', 'é'].length < wordLimit - 1 ∧
      (∃ n, Finds (fun _ => anyChar) n (searchUntil ['é', 'é']) ['a', 'é', 'é', 'é']
        (.list [.list [.char 'a'], .text ['é', 'é']]) ['é']) ∧
      ∃ n, Fails (fun _ => anyChar) n (searchPast ['é', 'a']) ['a', 'é', 'é', 'é'] := by
  have h : ['a', 'é', 'é', 'é'].length < wordLimit - 1 := by decide
  refine ⟨h, ?_, ?_⟩
  · have huntil := (searches_by_character_agree (fun _ => anyChar) ['é', 'é'] _ h).2.1
    exact (huntil _ (by simp) _ _).2 ⟨['a'], rfl, 0, rfl⟩
  · have hfails := (searches_by_character_agree (fun _ => anyChar) ['é', 'a'] _ h).2.2.1
    exact (hfails _ (by simp)).2 (by decide)

end TextGrammar.Grammar
