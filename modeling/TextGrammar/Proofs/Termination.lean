import TextGrammar.Json
import TextGrammar.Proofs.Allowances
import TextGrammar.Proofs.OffsetScanners
import TextGrammar.Proofs.Progress

/-!
# The grammar for values terminates

Values refer to lists and objects, and these refer to values behind their opening bracket only. The
items of a list behind the first one have a comma before them, and the items of a string are not
empty. So two references to rules and two rounds of a loop for each character, and one more, are
enough on every text.
-/

namespace TextGrammar.Json

open Grammar

variable {n : Nat} {item : Grammar} {names : String → Prop}

theorem advances_stringItem :
    Advances rules (orElse (literal ['\\', '"']) [notLiteral ['"']]) := by
  apply advances_orElse
  simp only [List.forall_mem_cons]
  exact ⟨advances_literal _ _, advances_notLiteral _, nofun⟩

theorem loopsAdvance_string : LoopsAdvance rules string := by
  have hitem : LoopsAdvance rules (orElse (literal ['\\', '"']) [notLiteral ['"']]) := by
    apply LoopsAdvance.orElse
    simp only [List.forall_mem_cons]
    exact ⟨.leaf, .leaf, nofun⟩
  refine .map (.pipe ?_)
  simp only [List.forall_mem_cons]
  exact ⟨.leaf, .repeated (Nat.zero_le _) advances_stringItem hitem, .leaf, nofun⟩

theorem loopsAdvance_element : LoopsAdvance rules element := by
  refine .map (.pipe ?_)
  simp only [List.forall_mem_cons]
  exact ⟨.leaf, .rule, .leaf, nofun⟩

theorem loopsAdvance_pair : LoopsAdvance rules pair := by
  refine .map (.fields ?_)
  simp only [List.forall_mem_cons]
  exact ⟨.leaf, loopsAdvance_string, .leaf, .leaf, loopsAdvance_element, nofun⟩

theorem loopsAdvance_enclosed (first last : Char) (h : LoopsAdvance rules item) :
    LoopsAdvance rules (enclosed first last item) := by
  have hadv : Advances rules (followedBy (literal [',']) item) :=
    advances_followedBy (advances_literal _ _) item
  refine .map (.pipe ?_)
  simp only [List.forall_mem_cons]
  exact ⟨.leaf, .leaf, .sepBy hadv h .leaf, .leaf, .leaf, nofun⟩

theorem loopsAdvance_value : LoopsAdvance rules value := by
  have hboolean : LoopsAdvance rules boolean := by
    refine .map (.orElse ?_)
    simp only [List.forall_mem_cons]
    exact ⟨.leaf, .leaf, nofun⟩
  apply LoopsAdvance.orElse
  simp only [List.forall_mem_cons]
  exact ⟨hboolean, loopsAdvance_string, .leaf, .rule, .rule, nofun⟩

theorem opens_enclosed (first last : Char) (item : Grammar) :
    Opens rules names (enclosed first last item) :=
  .map (.pipe (advances_literal _ _) .leaf)

theorem opens_value (hlist : names "list") (hobject : names "object") :
    Opens rules names value := by
  have hboolean : Opens rules names boolean := by
    refine .map (.orElse ?_)
    simp only [List.forall_mem_cons]
    exact ⟨.leaf, .leaf, nofun⟩
  have hstring : Opens rules names string := .map (.pipe (advances_literal _ _) .leaf)
  apply Opens.orElse
  simp only [List.forall_mem_cons]
  exact ⟨hboolean, hstring, .leaf, .rule hlist, .rule hobject, nofun⟩

/-- Values refer to lists and objects at once, and to no other rule before they have consumed
anything. -/
def rank (name : String) : Nat := if name = "value" then 1 else 0

theorem ranked_rules : Ranked rules rank 2 where
  rank_lt name := by
    unfold rank
    split
    · exact Nat.lt_succ_self 1
    · exact Nat.zero_lt_two
  loops name := by
    unfold rules
    split
    · exact loopsAdvance_value
    · exact loopsAdvance_enclosed _ _ loopsAdvance_element
    · exact .map (loopsAdvance_enclosed _ _ loopsAdvance_pair)
    · exact .leaf
  opens name := by
    unfold rules
    split
    · exact opens_value (by decide) (by decide)
    · exact opens_enclosed _ _ _
    · exact .map (opens_enclosed _ _ _)
    · exact .leaf

theorem halts_value {input : Text} (hn : 2 * input.length + 1 ≤ n) :
    (value.parserWithin rules n input).Halts := by
  have hrank : rank "value" = 1 := rfl
  have hrule : HaltsBelow rules (n + 1) (rule "value") (input.length + 1) :=
    ranked_rules.haltsBelow (by omega)
  exact haltsBelow_rule_iff.1 hrule input (Nat.lt_succ_self _)

theorem exists_run_value (input : Text) : ∃ log o, ∀ n, 2 * input.length + 1 ≤ n →
    value.parserWithin rules n input = ⟨log, .returns o⟩ := by
  obtain ⟨o, ho⟩ := halts_value (Nat.le_refl (2 * input.length + 1))
  refine ⟨(value.parserWithin rules (2 * input.length + 1) input).log, o, ?_⟩
  intro n hn
  obtain ⟨o', ho'⟩ := halts_value hn
  have hx : value.Finishes rules input (value.parserWithin rules n input) :=
    ⟨n, rfl, by rw [ho']; nofun⟩
  have hy : value.Finishes rules input (value.parserWithin rules (2 * input.length + 1) input) :=
    ⟨_, rfl, by rw [ho]; nofun⟩
  rw [hx.unique hy, ← ho]

theorem exists_of_finds_pair {s t : Text} {found : Value} (h : Finds rules n pair s found t) :
    ∃ key element' s₁ s₂ u, found = .list [.text key, element'] ∧
      Finds rules n string s₁ (.text key) s₂ ∧ Finds rules n element u element' t := by
  obtain ⟨entries, hfields, rfl⟩ := Parser.ending_of_map_success h
  obtain ⟨values, hall, rfl⟩ := exists_of_finds_fields hfields
  obtain _ | ⟨_, hall⟩ := hall
  obtain _ | ⟨hkey, hall⟩ := hall
  obtain _ | ⟨_, hall⟩ := hall
  obtain _ | ⟨_, hall⟩ := hall
  obtain _ | ⟨helement, _ | _⟩ := hall
  obtain ⟨parts, _, rfl⟩ := Parser.ending_of_map_success hkey
  exact ⟨_, _, _, _, _, rfl, hkey, helement⟩

/-- The grammar for values returns on every text, with one and the same run for all allowances of
two for each character and one more. No rule gets back to itself but in a shorter text; no loop
takes more rounds than its text has characters, however far it may count; where a pair is made, both
parts have been found; and the scanners that cut at byte offsets do not fault. -/
theorem value_halts_on_every_text (input : Text) :
    (∃ log o, ∀ n, 2 * input.length + 1 ≤ n →
      value.parserWithin rules n input = ⟨log, .returns o⟩) ∧
    (∀ name s t, Applied rules (rules name, s) (rule name, t) → t.length < s.length) ∧
    (∀ g bounds s, Applied rules (value, input) (repeated g bounds, s) → ∀ n rounds t,
      (g.parserWithin rules n).Rounds s rounds t → rounds.length + t.length ≤ s.length) ∧
    (∀ g separator s, Applied rules (value, input) (sepBy g separator, s) → ∀ n u rounds t,
      ((followedBy separator g).parserWithin rules n).Rounds u rounds t →
        rounds.length + t.length ≤ u.length) ∧
    (∀ n s t found, Finds rules n pair s found t →
      ∃ key element' s₁ s₂ u, found = .list [.text key, element'] ∧
        Finds rules n string s₁ (.text key) s₂ ∧ Finds rules n element u element' t) ∧
    (∀ n s, Text.splitCharsByOffset n s = pure (Text.splitChars? n s)) ∧
    Parser.numberLiteralByOffset = .ofScanner .numberLiteral := by
  refine ⟨exists_run_value input, fun name s t => ranked_rules.length_lt, ?_, ?_,
    fun n s t found => exists_of_finds_pair, Text.splitCharsByOffset_eq,
    Parser.numberLiteralByOffset_eq⟩
  · intro g bounds s hs n rounds t h
    cases loopsAdvance_value.applied ranked_rules.loops hs with
    | repeated _ hadv _ => exact h.length_add_le fun s _ t hx => hadv s t (leaves_of_ending hx)
  · intro g separator s hs n u rounds t h
    cases loopsAdvance_value.applied ranked_rules.loops hs with
    | sepBy hadv _ _ => exact h.length_add_le fun s _ t hx => hadv s t (leaves_of_ending hx)

end TextGrammar.Json
