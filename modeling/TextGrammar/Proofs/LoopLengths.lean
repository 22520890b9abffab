import Mathlib.Data.List.Sublists
import Mathlib.Data.Set.Finite.Basic
import Mathlib.Order.Filter.Finite
import TextGrammar.Proofs.Faults
import TextGrammar.Proofs.Halts
import TextGrammar.Proofs.Separators
import TextGrammar.Proofs.StoppingPoints

/-!
# How long loops go on

A grammar leaves nothing but a contiguous part of its text, and a text has finitely many of these.
So a loop returns within some allowance if its parts return on all of them and each of its rounds
leaves less than it was applied to. It is no longer than its input then, both in the values that it
finds and, but for the last one, in the applications that it takes.
-/

namespace TextGrammar

theorem Text.length_le_bytes (s : Text) : s.length ≤ Text.bytes s := by
  induction s with
  | nil => exact Nat.le_refl 0
  | cons c s ih =>
    have hc := c.utf8Size_pos
    rw [List.length_cons, Text.bytes_cons]
    omega

namespace Parser

variable {α β : Type} {p : Parser α} {stop : Parser β} {refusal : ParseError} {s : Text}

/-! ## How often a loop applies its parser -/

/-- Logs one event each time it is applied, and none of the events of the parser. -/
def counted (p : Parser α) : Parser α := fun s => ⟨[.entered "" s], (p s).ending⟩

def silenced (p : Parser α) : Parser α := fun s => ⟨[], (p s).ending⟩

theorem log_untilFailure (p : Parser α) (n : Nat) (s : Text) :
    (p.untilFailure n s).log = (p.repeatWithin 0 n s).log := by
  induction n generalizing s with
  | zero =>
    rw [repeatWithin_zero]
    rfl
  | succ n ih =>
    rw [untilFailure_succ, repeatWithin_succ]
    apply Run.log_bind_congr
    intro o _
    cases o with
    | failure error => rfl
    | success value t =>
      dsimp only
      rw [Run.log_bind_pure, Run.log_bind_pure]
      exact ih t

theorem length_log_repeatWithin_le (hp : p.Shortens s) (hlog : ∀ t, (p t).log.length ≤ 1)
    (least most : Nat) : (p.repeatWithin least most s).log.length ≤ s.length + 1 := by
  induction most generalizing s least with
  | zero =>
    rw [repeatWithin_zero]
    exact Nat.zero_le _
  | succ most ih =>
    have hone := hlog s
    have hfirst : (p s).log.length ≤ s.length + 1 := Nat.le_add_left_of_le hone
    rw [repeatWithin_succ]
    apply Run.length_log_bind_le hfirst
    intro o ho
    cases o with
    | success value t =>
      have hlt := hp.length_lt ho
      have hothers := ih (hp.part (hp.isInfix ho)) (least - 1)
      dsimp only
      rw [Run.log_bind_pure]
      omega
    | failure error =>
      dsimp only
      split
      · exact hfirst
      · exact hfirst

theorem length_log_repeated_le (hp : p.Shortens s) (hlog : ∀ t, (p t).log.length ≤ 1)
    (bounds : Bounds) : (p.repeated bounds s).log.length ≤ s.length + 1 := by
  unfold repeated
  split
  · exact length_log_repeatWithin_le hp hlog _ _
  · exact Nat.zero_le _

theorem Shortens.exceptWhere (hp : p.Shortens s) : (p.exceptWhere stop refusal).Shortens s :=
  fun t value u ht hx => hp t value u ht (ending_exceptWhere_eq_success_iff.1 hx).2

theorem log_verdict (p : Parser α) (s : Text) : (p.verdict s).log = (p s).log := by
  refine Eq.trans (Run.log_bind_congr fun o _ => ?_) (Run.log_bind_pure (p s) fun _ => true)
  cases o with
  | success value t => rfl
  | failure error => rfl

theorem length_log_exceptWhere_le (p : Parser α) (stop : Parser β) (s : Text) :
    (p.counted.exceptWhere stop.silenced refusal s).log.length ≤ 1 := by
  have hstop : (stop.silenced.verdict s).log = [] := log_verdict stop.silenced s
  rw [exceptWhere_eq]
  apply Run.length_log_bind_le
  · rw [hstop]
    exact Nat.zero_le 1
  · intro ended _
    rw [hstop]
    cases ended with
    | true => exact Nat.zero_le 1
    | false => exact Nat.le_refl 1

theorem length_log_manyUntil_le (hp : p.Shortens s) (stop : Parser β) (n : Nat) :
    (p.counted.manyUntil stop.silenced n s).log.length ≤ s.length + 1 := by
  have hcounted : p.counted.Shortens s := hp
  -- Any error will do for the parser that looks ahead.
  rw [manyUntil_eq_untilFailure _ _ .noCharacter, log_untilFailure]
  exact length_log_repeatWithin_le hcounted.exceptWhere (length_log_exceptWhere_le p stop) 0 n

/-! ## Loops with a terminator -/

theorem HaltsOnParts.exceptWhere (hp : p.HaltsOnParts s) (hstop : stop.HaltsOnParts s) :
    (p.exceptWhere stop refusal).HaltsOnParts s := by
  intro t ht
  rw [exceptWhere_eq]
  have hverdict : (stop.verdict t).Halts := by
    refine (hstop t ht).bind fun o _ => ?_
    cases o with
    | success found u => exact Run.halts_pure true
    | failure error => exact Run.halts_pure false
  refine hverdict.bind fun ended _ => ?_
  cases ended with
  | true => exact Run.halts_pure _
  | false => exact hp t ht

theorem exists_ending_manyUntil (hhalts : p.HaltsOnParts s) (hstop : stop.HaltsOnParts s)
    (hp : p.Shortens s) {n : Nat} (hn : s.length < n) :
    ∃ values t, (p.manyUntil stop n s).ending = .returns (.success values t) ∧
      values.length ≤ s.length := by
  rw [manyUntil_eq_untilFailure _ _ .noCharacter]
  exact exists_ending_untilFailure (hhalts.exceptWhere hstop) hp.exceptWhere hn

end Parser

namespace Grammar

open Filter

variable {rules : Rules} {g separator : Grammar} {input : Text}

/-- Returns an outcome on every contiguous part of the input. -/
def HaltsOnParts (rules : Rules) (g : Grammar) (input : Text) : Prop :=
  ∀ s, s <:+: input → ∃ o, g.Returns rules s o

theorem HaltsOnParts.eventually (h : HaltsOnParts rules g input) :
    ∀ᶠ n in atTop, (g.parserWithin rules n).HaltsOnParts input := by
  -- The input has finitely many parts, so some allowance is enough for all of them.
  have hparts : {s | s <:+: input}.Finite :=
    (List.finite_toSet input.sublists).subset fun s hs => List.mem_sublists.2 hs.sublist
  refine (eventually_all_finite hparts).2 fun s hs => ?_
  obtain ⟨o, n, ho⟩ := h s hs
  have hfinishes : g.Finishes rules s (g.parserWithin rules n s) := ⟨n, rfl, by simp [ho]⟩
  filter_upwards [hfinishes.eventually_eq] with m hm
  exact ⟨o, by rw [hm, ho]⟩

theorem exists_leaves_of_followedBy {s u : Text} (h : (followedBy separator g).Leaves rules s u) :
    ∃ t, separator.Leaves rules s t ∧ g.Leaves rules t u := by
  obtain ⟨value, n, hx⟩ := h
  obtain ⟨found, t, hsep, hg⟩ := Parser.exists_of_ending_bind hx
  exact ⟨t, leaves_of_ending hsep, leaves_of_ending hg⟩

end Grammar

/-- On an input on all parts of which they return, the loops over parsers that make progress return.
If a parser never leaves all of such a part, a repetition whose bounds are in order and a loop with
a terminator find at most one value for each byte of the input, and within any allowance they apply
the parser at most once more than that. For a separated list it is enough that a separator and an
item together never leave all of such a part; it finds at most one item more than there are
bytes. -/
theorem loops_end_by_progress (rules : Rules) (g : Grammar) (input : Text)
    (hg : g.HaltsOnParts rules input) :
    ((∀ s t, s <:+: input → g.Leaves rules s t → t ≠ s) →
      (∀ bounds : Bounds, bounds.InOrder →
        ((∃ values t, (Grammar.repeated g bounds).Returns rules input (.success (.list values) t) ∧
            values.length ≤ Text.bytes input) ∨
          (Grammar.repeated g bounds).Refuses rules input) ∧
        ∀ n, ((g.parserWithin rules n).counted.repeated bounds input).log.length ≤
          Text.bytes input + 1) ∧
      ∀ stop : Grammar, stop.HaltsOnParts rules input →
        (∃ values t, (Grammar.manyUntil g stop).Returns rules input (.success (.list values) t) ∧
          values.length ≤ Text.bytes input) ∧
        ∀ n, ((g.parserWithin rules n).counted.manyUntil (stop.parserWithin rules n).silenced n
          input).log.length ≤ Text.bytes input + 1) ∧
    ∀ separator : Grammar, separator.HaltsOnParts rules input →
      (∀ s t u, s <:+: input → separator.Leaves rules s t → g.Leaves rules t u → u ≠ s) →
        ∃ values t, (Grammar.sepBy g separator).Returns rules input (.success (.list values) t) ∧
          values.length ≤ Text.bytes input + 1 := by
  have hbytes := Text.length_le_bytes input
  refine ⟨fun hprogress => ⟨?_, ?_⟩, ?_⟩
  · have hshortens := Grammar.shortens_parserWithin hprogress
    intro bounds hb
    refine ⟨?_, fun n => ?_⟩
    · obtain ⟨n, hn⟩ := hg.eventually.exists
      rcases Parser.exists_ending_repeated (Bounds.inOrder_iff.1 hb) hn (hshortens n) with
        ⟨values, t, hx, hle⟩ | ⟨error, hx⟩
      · have hlist := Parser.ending_map_of_success Value.list hx
        exact Or.inl ⟨values, t, ⟨n, hlist⟩, hle.trans hbytes⟩
      · exact Or.inr ⟨error, n, Parser.ending_bind_of_failure _ hx⟩
    · have hcounted : (g.parserWithin rules n).counted.Shortens input := hshortens n
      have hle := Parser.length_log_repeated_le hcounted (fun _ => Nat.le_refl 1) bounds
      exact hle.trans (Nat.succ_le_succ hbytes)
  · have hshortens := Grammar.shortens_parserWithin hprogress
    intro stop hstop
    refine ⟨?_, fun n => ?_⟩
    · obtain ⟨n, ⟨hn, hsn⟩, hlt⟩ := ((hg.eventually.and hstop.eventually).and
        (Filter.eventually_gt_atTop input.length)).exists
      obtain ⟨values, t, hx, hle⟩ := Parser.exists_ending_manyUntil hn hsn (hshortens n) hlt
      have hlist := Parser.ending_map_of_success Value.list hx
      exact ⟨values, t, ⟨n, hlist⟩, hle.trans hbytes⟩
    · have hle := Parser.length_log_manyUntil_le (hshortens n) (stop.parserWithin rules n) n
      exact hle.trans (Nat.succ_le_succ hbytes)
  · intro separator hsep hprogress
    obtain ⟨n, ⟨hn, hsn⟩, hlt⟩ := ((hg.eventually.and hsep.eventually).and
      (Filter.eventually_gt_atTop input.length)).exists
    have hround : ∀ s u, s <:+: input → (Grammar.followedBy separator g).Leaves rules s u →
        u ≠ s := by
      intro s u hs hu
      obtain ⟨t, hst, htu⟩ := Grammar.exists_leaves_of_followedBy hu
      exact hprogress s t u hs hst htu
    obtain ⟨values, t, hx, hle⟩ := Parser.exists_ending_sepBy (hn input (List.infix_refl input))
      (fun value t ht => (Grammar.leaves_of_ending ht).isInfix)
      (Grammar.haltsOnParts_followedBy hsn hn) (Grammar.shortens_parserWithin hround n) hlt
    have hlist := Parser.ending_map_of_success Value.list hx
    exact ⟨values, t, ⟨n, hlist⟩, hle.trans (Nat.succ_le_succ hbytes)⟩

namespace Grammar

theorem haltsOnParts_leaf (scanner : Scanner Value) (input : Text) :
    HaltsOnParts rules (leaf scanner) input :=
  fun s _ => ⟨scanner.scan s, 0, rfl⟩

end Grammar

/-- Vowels before another character; and blanks between commas, where there may be none. -/
theorem loops_end_by_progress_vowels :
    Grammar.vowel.HaltsOnParts Grammar.noRules ['a', 'e', 'é'] ∧
    (∀ s t, s <:+: ['a', 'e', 'é'] → Grammar.vowel.Leaves Grammar.noRules s t → t ≠ s) ∧
    Bounds.InOrder (.atLeast 2) ∧
    (∀ n, ((Grammar.vowel.parserWithin Grammar.noRules n).counted.repeated (.atLeast 2)
      ['a', 'e', 'é']).log.length ≤ 5) ∧
    Grammar.whitespace.HaltsOnParts Grammar.noRules [',', ' ', ','] ∧
    ∃ values t, (Grammar.sepBy .whitespace (.literal [','])).Returns Grammar.noRules
      [',', ' ', ','] (.success (.list values) t) ∧ values.length ≤ 4 := by
  have hvowel : Grammar.vowel.HaltsOnParts Grammar.noRules ['a', 'e', 'é'] :=
    Grammar.haltsOnParts_leaf _ _
  have hprogress : ∀ s t, s <:+: ['a', 'e', 'é'] → Grammar.vowel.Leaves Grammar.noRules s t →
      t ≠ s :=
    fun s t _ => (Grammar.advances_char _ _ _).ne
  have hbounds : Bounds.InOrder (.atLeast 2) := Bounds.inOrder_iff.2 (by decide)
  have hblank : Grammar.whitespace.HaltsOnParts Grammar.noRules [',', ' ', ','] :=
    Grammar.haltsOnParts_leaf _ _
  have hround : ∀ s t u, s <:+: [',', ' ', ','] →
      (Grammar.literal [',']).Leaves Grammar.noRules s t →
        Grammar.whitespace.Leaves Grammar.noRules t u → u ≠ s := by
    rintro s t u _ ht hu rfl
    exact Nat.lt_irrefl _ (Nat.lt_of_le_of_lt hu.length_le (Grammar.advances_literal _ _ u t ht))
  exact ⟨hvowel, hprogress, hbounds,
    (((loops_end_by_progress _ _ _ hvowel).1 hprogress).1 _ hbounds).2, hblank,
    (loops_end_by_progress _ _ _ hblank).2 _ (Grammar.haltsOnParts_leaf _ _) hround⟩

end TextGrammar
