import TextGrammar.Proofs.Loops

/-!
# Parsers that shorten the text

A run halts if it returns an outcome: it is neither stopped by a fault nor cut off by its allowance.
A loop halts if each of its rounds does and leaves less than it was applied to, and then it has no
more rounds than its input has characters. Only the texts that the loop can come to matter, the
contiguous parts of its input. For a separated list one round is a separator and an item together,
and either of the two may leave all of its text.
-/

namespace TextGrammar

namespace Run

variable {α β : Type}

def Halts (x : Run α) : Prop := ∃ a, x.ending = .returns a

theorem halts_pure (a : α) : (pure a : Run α).Halts := ⟨a, rfl⟩

theorem Halts.bind {x : Run α} {f : α → Run β} (hx : x.Halts)
    (hf : ∀ a, x.ending = .returns a → (f a).Halts) : (x >>= f).Halts := by
  obtain ⟨a, ha⟩ := hx
  obtain ⟨b, hb⟩ := hf a ha
  exact ⟨b, ending_bind_eq_returns_iff.2 ⟨a, ha, hb⟩⟩

end Run

namespace Parser

variable {α β : Type} {p : Parser α} {separator : Parser β} {s t : Text}
  {rounds : List (Text × α)} {error : ParseError}

theorem halts_bind {f : α → Parser β} (hp : (p s).Halts)
    (hf : ∀ value t, (p s).ending = .returns (.success value t) → (f value t).Halts) :
    (p.bind f s).Halts := by
  apply hp.bind
  intro o ho
  cases o with
  | success value t => exact hf value t ho
  | failure error => exact Run.halts_pure _

theorem halts_map_iff {f : α → β} : (p.map f s).Halts ↔ (p s).Halts := by
  constructor
  · rintro ⟨o, ho⟩
    obtain ⟨found, hfound, _⟩ := Run.ending_bind_eq_returns_iff.1 ho
    exact ⟨found, hfound⟩
  · intro hp
    exact halts_bind hp fun _ _ _ => Run.halts_pure _

def HaltsOnParts (p : Parser α) (input : Text) : Prop := ∀ s, s <:+: input → (p s).Halts

/-- Of every contiguous part of the input where it succeeds, the parser leaves a smaller part. -/
def Shortens (p : Parser α) (input : Text) : Prop :=
  ∀ s value t, s <:+: input → (p s).ending = .returns (.success value t) → t <:+: s ∧ t ≠ s

theorem HaltsOnParts.part (h : p.HaltsOnParts s) (ht : t <:+: s) : p.HaltsOnParts t :=
  fun u hu => h u (hu.trans ht)

theorem Shortens.part (h : p.Shortens s) (ht : t <:+: s) : p.Shortens t :=
  fun u value v hu => h u value v (hu.trans ht)

theorem Shortens.isInfix {value : α} (h : p.Shortens s)
    (hs : (p s).ending = .returns (.success value t)) : t <:+: s :=
  (h s value t (List.infix_refl s) hs).1

theorem Shortens.length_lt {value : α} (h : p.Shortens s)
    (hs : (p s).ending = .returns (.success value t)) : t.length < s.length := by
  obtain ⟨ht, hne⟩ := h s value t (List.infix_refl s) hs
  exact Nat.lt_of_le_of_ne ht.length_le fun hlength => hne (ht.eq_of_length hlength)

/-! ## Rounds -/

theorem Rounds.length_le_of_shortens (h : Rounds p s rounds t) (hp : p.Shortens s) :
    rounds.length ≤ s.length := by
  induction h with
  | nil => exact Nat.zero_le _
  | cons hs _ ih =>
    have hothers := ih (hp.part (hp.isInfix hs))
    exact Nat.lt_of_le_of_lt hothers (hp.length_lt hs)

/-- The rounds come to a failure, as each of them leaves fewer characters. -/
theorem exists_rounds_to_failure (hhalts : p.HaltsOnParts s) (hp : p.Shortens s) :
    ∃ rounds t error, Rounds p s rounds t ∧ (p t).ending = .returns (.failure error) := by
  induction hlength : s.length using Nat.strongRecOn generalizing s with
  | ind length ih =>
    obtain ⟨o, ho⟩ := hhalts s (List.infix_refl s)
    cases o with
    | failure error => exact ⟨[], s, error, .nil, ho⟩
    | success value t =>
      have ht := hp.isInfix ho
      obtain ⟨rounds, u, error, hrounds, he⟩ :=
        ih _ (hlength ▸ hp.length_lt ho) (hhalts.part ht) (hp.part ht) rfl
      exact ⟨_, u, error, .cons ho hrounds, he⟩

theorem Rounds.exists_exhausted (h : Rounds p s rounds t)
    (he : (p t).ending = .returns (.failure error)) (most : Nat) :
    ∃ others u, Rounds p s others u ∧ p.Exhausted most others u := by
  induction h generalizing most with
  | nil =>
    cases most with
    | zero => exact ⟨[], _, .nil, Or.inl rfl⟩
    | succ most => exact ⟨[], _, .nil, Or.inr ⟨Nat.succ_pos most, error, he⟩⟩
  | cons hs _ ih =>
    cases most with
    | zero => exact ⟨[], _, .nil, Or.inl rfl⟩
    | succ most =>
      obtain ⟨others, u, hothers, hstop⟩ := ih he most
      refine ⟨_, u, .cons hs hothers, ?_⟩
      rcases hstop with hfull | ⟨hlt, hfails⟩
      · exact Or.inl (congrArg (· + 1) hfull)
      · exact Or.inr ⟨Nat.succ_lt_succ hlt, hfails⟩

/-! ## Loops -/

theorem exists_ending_repeated {bounds : Bounds} (hb : bounds.least ≤ bounds.most)
    (hhalts : p.HaltsOnParts s) (hp : p.Shortens s) :
    (∃ values t, (p.repeated bounds s).ending = .returns (.success values t) ∧
      values.length ≤ s.length) ∨
    ∃ error, (p.repeated bounds s).ending = .returns (.failure error) := by
  obtain ⟨rounds, t, error, hrounds, he⟩ := exists_rounds_to_failure hhalts hp
  obtain ⟨others, u, hothers, hstop⟩ := hrounds.exists_exhausted he bounds.most
  rcases (repeated_eq_of_rounds hb hothers hstop).2 with ⟨hx, _⟩ | ⟨error, _, hx, _⟩
  · refine Or.inl ⟨_, u, hx, ?_⟩
    rw [List.length_map]
    exact hothers.length_le_of_shortens hp
  · exact Or.inr ⟨error, hx⟩

theorem exists_ending_untilFailure (hhalts : p.HaltsOnParts s) (hp : p.Shortens s) {n : Nat}
    (hn : s.length < n) :
    ∃ values t, (p.untilFailure n s).ending = .returns (.success values t) ∧
      values.length ≤ s.length := by
  obtain ⟨rounds, t, error, hrounds, he⟩ := exists_rounds_to_failure hhalts hp
  have hle := hrounds.length_le_of_shortens hp
  refine ⟨rounds.map Prod.snd, t, ?_, ?_⟩
  · rw [untilFailure_of_failure hrounds he (Nat.lt_of_le_of_lt hle hn)]
  · rwa [List.length_map]

theorem exists_ending_sepBy (hp : (p s).Halts)
    (hleaves : ∀ value t, (p s).ending = .returns (.success value t) → t <:+: s)
    (hround : (separator.followedBy p).HaltsOnParts s)
    (hshortens : (separator.followedBy p).Shortens s) {n : Nat} (hn : s.length < n) :
    ∃ values t, (p.sepBy separator n s).ending = .returns (.success values t) ∧
      values.length ≤ s.length + 1 := by
  obtain ⟨o, ho⟩ := hp
  cases o with
  | failure error => exact ⟨[], s, ending_sepBy_of_failure ho, Nat.zero_le _⟩
  | success first t =>
    have ht := hleaves first t ho
    have hle := ht.length_le
    obtain ⟨others, u, hothers, hlength⟩ :=
      exists_ending_untilFailure (hround.part ht) (hshortens.part ht) (Nat.lt_of_le_of_lt hle hn)
    rw [← afterSeparators_eq_untilFailure] at hothers
    refine ⟨first :: others, u, ending_sepBy_of_success ho hothers, ?_⟩
    exact Nat.succ_le_succ (Nat.le_trans hlength hle)

end Parser

end TextGrammar
