import TextGrammar.Proofs.Admitted

/-!
# What a parser leaves

Whatever a grammar leaves of a text is a contiguous part of it. Only a bounded parser cuts anything
off at the end, so where none is applied the remaining text is a suffix.
-/

namespace TextGrammar

namespace Contract

/-- A contiguous part of the text is left; `faults` says what may stop the parser. -/
def leavesInfix (faults : Fault → Prop) : Contract where
  leaves s t := t <:+: s
  errs _ := True
  faults := faults
  leaves_of_suffix h := h.isInfix
  leaves_trans hst htu := htu.trans hst
  bytes_le_of_leaves := Text.bytes_le_of_infix

def leavesSuffix : Contract where
  leaves s t := t <:+ s
  errs _ := True
  faults _ := True
  leaves_of_suffix h := h
  leaves_trans hst htu := htu.trans hst
  bytes_le_of_leaves h := Text.bytes_le_of_infix h.isInfix

end Contract

theorem Parser.ends_span_of_infix {s after : Text} {faults : Fault → Prop} (h : after <:+: s)
    (hsplit : faults .splitCharacter) :
    (Parser.span s after).Ends (fun part => ∀ t, t <:+: part → t <:+: s) faults := by
  rcases Parser.span_cases (Text.bytes_le_of_infix h) with ⟨part, hpart⟩ | hcut
  · rw [hpart, Run.ends_pure]
    intro t ht
    exact ht.trans (Parser.span_eq_pure_iff.1 hpart).1.isInfix
  · rwa [hcut, Run.ends_fault]

namespace Grammar

variable (rules : Rules)

theorem leavesInfix_admits :
    (Contract.leavesInfix (· ≠ .grownRest)).Admits rules fun _ => True where
  leaf _ _ _ _ _ := trivial
  nearest _ _ _ _ := trivial
  repeated _ _ _ _ _ := nofun
  before _ _ _ _ _ _ hafter := Parser.ends_span_of_infix hafter nofun
  count _ _ _ _ := nofun

/-- A bounded parser is the only grammar whose remaining text may end before the text does. -/
def NotBounded (a : Grammar × Text) : Prop := ∀ g marker, a.1 ≠ .before g marker

theorem leavesSuffix_admits : Contract.leavesSuffix.Admits rules NotBounded where
  leaf _ _ _ _ _ := trivial
  nearest _ _ _ _ := trivial
  repeated _ _ _ _ _ := trivial
  before g marker _ _ h _ _ := absurd rfl (h g marker)
  count _ _ _ _ := trivial

variable {rules} {g : Grammar} {s t : Text}

theorem Leaves.isInfix (h : g.Leaves rules s t) : t <:+: s := by
  obtain ⟨value, n, hx⟩ := h
  have hk := (leavesInfix_admits rules).kept n g s fun _ _ => trivial
  exact hk.leaves_of_success hx

theorem Leaves.isSuffix (h : g.Leaves rules s t)
    (hb : ∀ p marker u, ¬ Applied rules (g, s) (.before p marker, u)) : t <:+ s := by
  obtain ⟨value, n, hx⟩ := h
  have hk := (leavesSuffix_admits rules).kept n g s fun b hab p marker hp =>
    hb p marker b.2 (by rwa [← hp])
  exact hk.leaves_of_success hx

theorem Received.isInfix {asks : List Value → Option Grammar} {s t : Text}
    {received : List Value} (h : Received rules asks s received t) : t <:+: s := by
  induction h with
  | start => exact List.infix_refl _
  | next _ _ hx _ ih => exact Leaves.isInfix ⟨_, hx⟩ |>.trans ih

theorem Applies.isInfix {a b : Grammar × Text} (h : Applies rules a b) : b.2 <:+: a.2 := by
  induction h with
  | bound hx => exact Leaves.isInfix ⟨_, hx⟩
  | other _ _ ih => exact ih
  | nearestOther _ _ ih => exact ih
  | pipeOther hl _ ih => exact ih.trans hl.isInfix
  | seqOther _ ih => exact ih
  | seq hl => exact hl.isInfix
  | repeatedAgain _ _ hl _ ih => exact ih.trans hl.isInfix
  | manyUntilAgain _ hl _ ih => exact ih.trans hl.isInfix
  | separator hl => exact hl.isInfix
  | sepByAgain hl hs _ ih => exact ih.trans (hs.isInfix.trans hl.isInfix)
  | following hl => exact hl.isInfix
  | before _ hspan => exact (Parser.span_eq_pure_iff.1 hspan).1.isInfix
  | fieldOther hl _ ih => exact ih.trans hl.isInfix
  | step hr _ => exact hr.isInfix
  | asked hr _ => exact hr.isInfix
  | _ => exact List.infix_refl _

theorem Applied.isInfix {a b : Grammar × Text} (h : Applied rules a b) : b.2 <:+: a.2 := by
  induction h with
  | refl => exact List.infix_refl _
  | tail _ hab ih => exact hab.isInfix.trans ih

/-- Every remaining text is a contiguous part of the input, so no byte count that is taken from
another is larger; and it is a suffix if the run applies no bounded parser. -/
theorem rest_of_success (rules : Rules) (n : Nat) (g : Grammar) (input : Text) :
    (g.parserWithin rules n input).ending ≠ .faults .grownRest ∧
    ∀ value rest, (g.parserWithin rules n input).ending = .returns (.success value rest) →
      (∃ pre post, input = pre ++ rest ++ post) ∧ Text.bytes rest ≤ Text.bytes input ∧
      ((∀ p marker t, ¬ Applied rules (g, input) (.before p marker, t)) →
        ∃ pre, input = pre ++ rest) := by
  constructor
  · intro hf
    have hk := (leavesInfix_admits rules).kept n g input fun _ _ => trivial
    exact (Run.ends_iff.1 hk).2 _ hf rfl
  · intro value rest hx
    have hl : g.Leaves rules input rest := leaves_of_ending hx
    obtain ⟨pre, post, hinfix⟩ := hl.isInfix
    refine ⟨⟨pre, post, hinfix.symm⟩, Text.bytes_le_of_infix hl.isInfix, ?_⟩
    intro hb
    obtain ⟨pre, hsuffix⟩ := hl.isSuffix hb
    exact ⟨pre, hsuffix.symm⟩

def opened : Grammar := orElse (followedBy (literal ['(']) (rule "opened")) [take 1]

theorem opened_applies_no_before (s : Text) (p marker : Grammar) (t : Text) :
    ¬ Applied (fun _ => opened) (opened, s) (.before p marker, t) := by
  intro h
  have hclosed := forall_applied_of_closed (S := fun g => g = opened ∨
    g = followedBy (literal ['(']) (rule "opened") ∨ g = rule "opened" ∨ ∃ sc, g = leaf sc)
    (Or.inl rfl) ?_ _ h
  · rcases hclosed with h | h | h | ⟨sc, h⟩ <;> cases h
  · rintro g s a (rfl | rfl | rfl | ⟨sc, rfl⟩) ha
    · cases ha with
      | first => exact Or.inr (Or.inl rfl)
      | other _ ha =>
        cases ha
        exact Or.inr (Or.inr (Or.inr ⟨_, rfl⟩))
    · cases ha with
      | followedBy => exact Or.inr (Or.inr (Or.inr ⟨_, rfl⟩))
      | following _ => exact Or.inr (Or.inr (Or.inl rfl))
    · cases ha
      exact Or.inl rfl
    · cases ha

theorem rest_of_success_opened :
    (opened.parserWithin (fun _ => opened) 2 ['(', '(', 'é', ';']).ending =
        .returns (.success (.text ['é']) [';']) ∧
      (∀ p marker t, ¬ Applied (fun _ => opened) (opened, ['(', '(', 'é', ';'])
        (.before p marker, t)) ∧
      ∃ pre, ['(', '(', 'é', ';'] = pre ++ [';'] := by
  have hx : (opened.parserWithin (fun _ => opened) 2 ['(', '(', 'é', ';']).ending =
      .returns (.success (.text ['é']) [';']) := rfl
  have hb := opened_applies_no_before ['(', '(', 'é', ';']
  exact ⟨hx, hb, ((rest_of_success _ _ _ _).2 _ _ hx).2.2 hb⟩

end Grammar

end TextGrammar
