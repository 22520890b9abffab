import TextGrammar.Proofs.Bounded
import TextGrammar.Proofs.Searches

/-!
# Text behind a marker

A parser that is bounded by a search sees the text up to the end of an occurrence. Where strings
are searched for that occur, text put behind the input adds only occurrences that end behind it, so
the same one ends first, and the cut is at the same place although all lengths it is computed from
have grown. What the bounded parser does cannot depend on that text.
-/

namespace TextGrammar

namespace Parser

variable {α β : Type}

theorem before_of_marker {p : Parser α} {marker : Parser β} {part after : Text} {value : β}
    (hm : marker (part ++ after) = pure (.success value after)) :
    p.before marker (part ++ after) = p part := by
  rw [before_eq_of_span (congrArg Run.ending hm) (span_append part after), hm]
  rfl

theorem leastConsuming_ofScanner (scanners : List (Scanner α)) (s : Text) :
    leastConsuming (scanners.map ofScanner) s = pure (best (scanners.map (·.scan s))) := by
  induction scanners with
  | nil => rfl
  | cons scanner scanners ih =>
    change pure (scanner.scan s) >>= _ = _
    rw [LawfulMonad.pure_bind, ih]
    rfl

end Parser

namespace Grammar

variable {rules : Rules} {n : Nat} {needles : List Text} {needle z y before after a b : Text}

theorem occurrence_append_cases (h : z ++ y = b ++ needle ++ a) :
    (∃ a', a = a' ++ y ∧ z = b ++ needle ++ a') ∨ a.length < y.length := by
  rcases Nat.lt_or_ge a.length y.length with hlt | hle
  · exact Or.inr hlt
  · have hsuffix : y <:+ a :=
      List.suffix_of_suffix_length_le ⟨z, rfl⟩ ⟨b ++ needle, h.symm⟩ hle
    obtain ⟨a', rfl⟩ := hsuffix
    rw [← List.append_assoc] at h
    exact Or.inl ⟨a', rfl, List.append_cancel_right h⟩

theorem EndsFirst.append (h : EndsFirst needles z before after) (y : Text) :
    EndsFirst needles (z ++ y) before (after ++ y) := by
  obtain ⟨earlier, needle, later, rfl, hz, hearlier, hlater⟩ := h
  refine ⟨earlier, needle, later, rfl, ?_, ?_, ?_⟩
  · rw [hz, List.append_assoc _ after y]
  · intro other hmem b a hb
    rw [List.length_append]
    rcases occurrence_append_cases hb with ⟨a', rfl, hold⟩ | hnew
    · have hlt := hearlier other hmem b a' hold
      rw [List.length_append]
      omega
    · omega
  · intro other hmem b a hb
    rw [List.length_append]
    rcases occurrence_append_cases hb with ⟨a', rfl, hold⟩ | hnew
    · have hle := hlater other hmem b a' hold
      rw [List.length_append]
      omega
    · omega

/-- The grammars that search for what ends first; a single string needs no choice. -/
def searches : List Text → List Grammar
  | [needle] => [firstOf [needle], searchFor needle]
  | needles => [firstOf needles]

theorem firstOf_eq_pure (h : EndsFirst needles z before after) :
    (firstOf needles).parserWithin rules n z = pure (.success (.text before) after) := by
  have hbest : Parser.best (needles.map (search z)) = some (.text before, after) :=
    finds_firstOf_iff_best.1 (finds_firstOf_iff.2 h : Finds noRules 0 _ z _ _)
  have hscanners : denoteAll n (rules.call n) (needles.map searchFor) =
      (needles.map fun needle => (Scanner.searchFor needle).map Value.text).map
        Parser.ofScanner := by
    rw [denoteAll_eq_map, List.map_map, List.map_map]
    rfl
  change Parser.nearest (denoteAll n (rules.call n) (needles.map searchFor)) z = _
  unfold Parser.nearest
  rw [hscanners, Parser.leastConsuming_ofScanner, LawfulMonad.pure_bind, List.map_map]
  have hsearch : (·.scan z) ∘ (fun needle => (Scanner.searchFor needle).map Value.text) =
      search z := rfl
  rw [hsearch, hbest]

theorem searchFor_eq_pure (h : EndsFirst [needle] z before after) :
    (searchFor needle).parserWithin rules n z = pure (.success (.text before) after) := by
  obtain ⟨other, hmem, hz⟩ := h.exists_mem
  obtain rfl := List.mem_singleton.1 hmem
  have hfirst : Text.splitAtFirst? other z = some (before, after) := by
    refine Text.splitAtFirst?_eq_some_iff.2 ⟨hz, fun b a hb => ?_⟩
    exact (length_before_le_iff hz hb).2 (h.length_le hmem hb)
  exact congrArg pure (search_eq_success_iff.2 ⟨before, hfirst, rfl⟩)

theorem eq_pure_of_mem_searches {marker : Grammar} (hm : marker ∈ searches needles)
    (h : EndsFirst needles z before after) :
    marker.parserWithin rules n z = pure (.success (.text before) after) := by
  unfold searches at hm
  split at hm
  · rcases List.mem_cons.1 hm with rfl | hm
    · exact firstOf_eq_pure h
    · obtain rfl := List.mem_singleton.1 hm
      exact searchFor_eq_pure h
  · obtain rfl := List.mem_singleton.1 hm
    exact firstOf_eq_pure h

/-- Bounded by a search for strings of which one occurs in `z`, a parser is applied to the text up
to the end of the occurrence that ends first, and it does the same whatever stands behind `z`: it
logs and finds and leaves the same, or it fails with the same error or stops at the same fault. -/
theorem before_ignores_text_behind {α : Type} (p : Parser α) (rules : Rules) (n : Nat)
    (needles : List Text) (z : Text) (h : ∃ needle ∈ needles, needle <:+: z) :
    ∀ marker ∈ searches needles,
      (∀ y, p.before (marker.parserWithin rules n) (z ++ y) =
        p.before (marker.parserWithin rules n) z) ∧
      ∃ before needle after, z = before ++ needle ++ after ∧ EndsFirst needles z before after ∧
        p.before (marker.parserWithin rules n) z = p (before ++ needle) := by
  intro marker hm
  obtain ⟨before, after, hfinds⟩ := exists_finds_firstOf h
  have hends : EndsFirst needles z before after := finds_firstOf_iff.1 (hfinds noRules 0)
  obtain ⟨needle, _, rfl⟩ := hends.exists_mem
  -- With `y` behind, the text and what the marker leaves of it are longer by the same.
  have hbound : ∀ y, p.before (marker.parserWithin rules n) (before ++ needle ++ (after ++ y)) =
      p (before ++ needle) := by
    intro y
    have hy := hends.append y
    rw [List.append_assoc] at hy
    exact Parser.before_of_marker (eq_pure_of_mem_searches hm hy)
  have hshort : p.before (marker.parserWithin rules n) (before ++ needle ++ after) =
      p (before ++ needle) := Parser.before_of_marker (eq_pure_of_mem_searches hm hends)
  refine ⟨fun y => ?_, before, needle, after, rfl, hends, hshort⟩
  rw [hshort, List.append_assoc _ after y, hbound]

/-- The text behind completes an occurrence that begins earlier and makes a string occur that did
not, and a parser that stops at a fault stops at it in both texts. -/
theorem before_ignores_text_behind_overlap :
    (∃ needle ∈ [['a', 'b', ';'], ['é'], ['b']], needle <:+: ['x', 'a', 'b']) ∧
      ((Parser.ofScanner .breakToEnd).before
        ((firstOf [['a', 'b', ';'], ['é'], ['b']]).parserWithin noRules 0)
          (['x', 'a', 'b'] ++ [';', 'é'])).ending = .returns (.success ['x', 'a', 'b'] []) ∧
      (((Parser.ofScanner .anyChar).repeated (.between 2 1)).before
        ((searchFor ['b']).parserWithin noRules 0) (['x', 'a', 'b'] ++ ['b'])).ending =
          .faults (.invertedBounds 2 1) := by
  have h : ∃ needle ∈ [['a', 'b', ';'], ['é'], ['b']], needle <:+: ['x', 'a', 'b'] :=
    ⟨['b'], by simp, ['x', 'a'], [], rfl⟩
  have hb : ∃ needle ∈ [['b']], needle <:+: ['x', 'a', 'b'] :=
    ⟨['b'], by simp, ['x', 'a'], [], rfl⟩
  refine ⟨h, ?_, ?_⟩
  · rw [(before_ignores_text_behind _ noRules 0 _ _ h _ List.mem_cons_self).1]
    rfl
  · rw [(before_ignores_text_behind _ noRules 0 _ _ hb _ (by simp [searches])).1]
    rfl

end Grammar

end TextGrammar
