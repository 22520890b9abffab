import TextGrammar.Parser.Procedure
import TextGrammar.Parser.Repetition
import TextGrammar.Parser.Several
import TextGrammar.Proofs.Contract
import TextGrammar.Proofs.Cuts

/-!
# Combinators keep contracts

A combinator keeps a contract where the parsers that it applies keep it, each on the text it is
applied to and only where it is applied. A loop is taken one round at a time.
-/

namespace TextGrammar

namespace Parser

open Contract

variable {α β : Type} {c : Contract} {s : Text}

theorem kept_ofScanner {scanner : Scanner α}
    (h : ∀ error, scanner.scan s = .failure error → c.errs error) :
    c.Kept s (ofScanner scanner s) := by
  change c.Allows s (scanner.scan s)
  cases ho : scanner.scan s with
  | success value rest => exact c.leaves_of_suffix (scanner.rest_suffix ho)
  | failure error => exact h error ho

theorem kept_bind {p : Parser α} {f : α → Parser β} (hp : c.Kept s (p s))
    (hf : ∀ value t, (p s).ending = .returns (.success value t) → c.Kept t (f value t)) :
    c.Kept s (p.bind f s) := by
  apply hp.bind
  · intro value t hx ht
    exact (hf value t hx).of_leaves ht
  · intro error _ he
    exact kept_failure he

theorem ending_map_of_success {p : Parser α} {t : Text} {value : α} (f : α → β)
    (h : (p s).ending = .returns (.success value t)) :
    (p.map f s).ending = .returns (.success (f value) t) := by
  change (p s >>= _).ending = _
  rw [Run.ending_bind, h]
  rfl

theorem ending_of_map_success {p : Parser α} {t : Text} {f : α → β} {found : β}
    (h : (p.map f s).ending = .returns (.success found t)) :
    ∃ value, (p s).ending = .returns (.success value t) ∧ f value = found := by
  change (p s >>= _).ending = _ at h
  rw [Run.ending_bind] at h
  cases hx : (p s).ending with
  | returns o =>
    rw [hx] at h
    cases o with
    | success value rest =>
      cases h
      exact ⟨value, rfl, rfl⟩
    | failure error => cases h
  | faults fault =>
    rw [hx] at h
    cases h
  | unfinished =>
    rw [hx] at h
    cases h

theorem kept_map {p : Parser α} (f : α → β) (hp : c.Kept s (p s)) : c.Kept s (p.map f s) :=
  kept_bind hp fun _ _ _ => kept_success leaves_refl

theorem kept_peek {p : Parser α} (hp : c.Kept s (p s)) : c.Kept s (p.peek s) := by
  apply hp.bind
  · intro value t _ _
    exact kept_success leaves_refl
  · intro error _ he
    exact kept_failure he

theorem kept_optional {p : Parser α} (hp : c.Kept s (p s)) : c.Kept s (p.optional s) := by
  apply hp.bind
  · intro value t _ ht
    exact kept_success ht
  · intro error _ _
    exact kept_success leaves_refl

theorem kept_orElse_cons {first second : Parser α} {others : List (Parser α)}
    (hp : c.Kept s (first s))
    (ho : ∀ error, (first s).ending = .returns (.failure error) →
      c.Kept s (second.orElse others s)) :
    c.Kept s (first.orElse (second :: others) s) := by
  apply hp.bind
  · intro value t _ ht
    exact kept_success ht
  · intro error hx _
    exact ho error hx

theorem kept_trace {p : Parser α} (label : String) (hp : c.Kept s (p s)) :
    c.Kept s (p.trace label s) := by
  apply kept_note
  apply hp.bind
  · intro value t _ ht
    have hle := c.bytes_le_of_leaves ht
    simp only [noteOutcome]
    rw [if_neg (Nat.not_lt.2 hle)]
    exact kept_note (kept_success ht)
  · intro error _ he
    exact kept_note (kept_failure he)

theorem kept_before {p : Parser α} {marker : Parser β} (hm : c.Kept s (marker s))
    (hspan : ∀ value after, (marker s).ending = .returns (.success value after) →
      (span s after).Ends (fun part => c.Kept s (p part)) c.faults) :
    c.Kept s (p.before marker s) := by
  apply hm.bind
  · intro value after hx _
    exact Run.ends_bind.2 (hspan value after hx)
  · intro error _ he
    exact kept_failure he

theorem kept_pipe_cons {p : Parser α} {others : List (Parser α)} (hp : c.Kept s (p s))
    (ho : ∀ value t, (p s).ending = .returns (.success value t) → c.Kept t (pipe others t)) :
    c.Kept s (pipe (p :: others) s) :=
  kept_bind hp fun value t hx => kept_map _ (ho value t hx)

theorem kept_seq_cons {p : Parser α} {others : List (Parser α)} (ho : c.Kept s (seq others s))
    (hp : ∀ values t, (seq others s).ending = .returns (.success values t) → c.Kept t (p t)) :
    c.Kept s (seq (p :: others) s) :=
  kept_bind ho fun values t hx => kept_map _ (hp values t hx)

theorem kept_repeatWithin_succ {p : Parser α} {least most : Nat} (hp : c.Kept s (p s))
    (hr : ∀ value t, (p s).ending = .returns (.success value t) →
      c.Kept t (p.repeatWithin (least - 1) most t)) :
    c.Kept s (p.repeatWithin least (most + 1) s) := by
  rw [repeatWithin_succ]
  apply hp.bind
  · intro value t hx ht
    exact ((hr value t hx).map _).of_leaves ht
  · intro error _ he
    dsimp only
    split
    · exact kept_success leaves_refl
    · exact kept_failure he

theorem kept_manyUntil_succ {p : Parser α} {stop : Parser β} {rounds : Nat}
    (hstop : c.Kept s (stop s))
    (hp : ∀ error, (stop s).ending = .returns (.failure error) → c.Kept s (p s))
    (hr : ∀ error value t, (stop s).ending = .returns (.failure error) →
      (p s).ending = .returns (.success value t) → c.Kept t (p.manyUntil stop rounds t)) :
    c.Kept s (p.manyUntil stop (rounds + 1) s) := by
  rw [manyUntil_succ]
  apply hstop.bind
  · intro value t _ _
    exact kept_success leaves_refl
  · intro error hs _
    apply (hp error hs).bind
    · intro value t hx ht
      exact ((hr error value t hs hx).map _).of_leaves ht
    · intro _ _ _
      exact kept_success leaves_refl

theorem kept_afterSeparators_succ {p : Parser α} {separator : Parser β} {rounds : Nat}
    (hsep : c.Kept s (separator s))
    (hp : ∀ found u, (separator s).ending = .returns (.success found u) → c.Kept u (p u))
    (hr : ∀ found u value t, (separator s).ending = .returns (.success found u) →
      (p u).ending = .returns (.success value t) →
        c.Kept t (p.afterSeparators separator rounds t)) :
    c.Kept s (p.afterSeparators separator (rounds + 1) s) := by
  rw [afterSeparators_succ]
  apply hsep.bind
  · intro found u hs hu
    have hpu : c.Kept s (p u) := (hp found u hs).of_leaves hu
    apply hpu.bind
    · intro value t hx ht
      exact ((hr found u value t hs hx).map _).of_leaves ht
    · intro _ _ _
      exact kept_success leaves_refl
  · intro _ _ _
    exact kept_success leaves_refl

theorem kept_sepBy {p : Parser α} {separator : Parser β} {rounds : Nat} (hp : c.Kept s (p s))
    (hr : ∀ value t, (p s).ending = .returns (.success value t) →
      c.Kept t (p.afterSeparators separator rounds t)) :
    c.Kept s (p.sepBy separator rounds s) := by
  apply hp.bind
  · intro value t hx ht
    exact ((hr value t hx).map _).of_leaves ht
  · intro _ _ _
    exact kept_success leaves_refl

/-- The best of some alternatives leaves what they may leave, and there is none only if all of them
fail. -/
def BestOf (c : Contract) (s : Text) (alternatives : List (Parser α)) :
    Option (α × Text) → Prop
  | some (_, rest) => c.leaves s rest
  | none => ∀ p ∈ alternatives, ∃ error, (p s).ending = .returns (.failure error)

theorem ends_leastConsuming_cons {p : Parser α} {others : List (Parser α)} (hp : c.Kept s (p s))
    (ho : ∀ o, (p s).ending = .returns o →
      (leastConsuming others s).Ends (BestOf c s others) c.faults) :
    (leastConsuming (p :: others) s).Ends (BestOf c s (p :: others)) c.faults := by
  apply Run.ends_bind.2
  apply Run.Ends.mono hp
  · intro o hx hc
    apply Run.ends_bind.2
    apply Run.Ends.mono (ho o hx)
    · intro best _ hbest
      rw [Run.ends_pure]
      cases o with
      | success value rest =>
        cases best with
        | none => exact hc
        | some found =>
          simp only [nearer]
          split
          · exact hc
          · exact hbest
      | failure error =>
        cases best with
        | none => exact List.forall_mem_cons.2 ⟨⟨error, hx⟩, hbest⟩
        | some found => exact hbest
    · exact fun _ hf => hf
  · exact fun _ hf => hf

theorem kept_nearest {alternatives : List (Parser α)}
    (h : (leastConsuming alternatives s).Ends (BestOf c s alternatives) c.faults)
    (he : (∀ p ∈ alternatives, ∃ error, (p s).ending = .returns (.failure error)) →
      c.errs (.noAlternative alternatives.length (Text.preview s))) :
    c.Kept s (nearest alternatives s) := by
  apply Run.ends_bind.2
  apply Run.Ends.mono h
  · intro best _ hbest
    cases best with
    | none => exact kept_failure (he hbest)
    | some found => exact kept_success hbest
  · exact fun _ hf => hf

end Parser

namespace Procedure

open Contract

variable {σ ν ω : Type} {c : Contract} {s : Text}

theorem ends_countUp {Q : Nat → Prop} {F : Fault → Prop} {steps : Nat}
    (hlt : steps + 1 < countLimit → Q (steps + 1))
    (hle : countLimit ≤ steps + 1 → F .countOverflow) : (countUp steps).Ends Q F := by
  rcases Nat.lt_or_ge (steps + 1) countLimit with h | h
  · rw [countUp_of_lt h]
    exact hlt h
  · rw [countUp_of_le h]
    exact hle h

theorem kept_proceed_succ {procedure : Procedure σ ν ω} {rounds steps : Nat} {state : σ}
    {value : Option ν}
    (h : (procedure.resume state value).Ends (fun (next, step) =>
      ∀ p, step = .yield p → c.Kept s (p s) ∧
        ∀ found t, (p s).ending = .returns (.success found t) →
          (countUp steps).Ends (fun steps =>
            c.Kept t (procedure.proceed rounds steps next (some found) t)) c.faults) c.faults) :
    c.Kept s (procedure.proceed (rounds + 1) steps state value s) := by
  rw [proceed_succ]
  apply Run.ends_bind.2
  apply Run.Ends.mono h
  · rintro ⟨next, step⟩ _ hstep
    cases step with
    | done output => exact kept_success leaves_refl
    | yield p =>
      obtain ⟨hp, hr⟩ := hstep p rfl
      apply hp.bind
      · intro found t hx ht
        apply Run.ends_bind.2
        apply Run.Ends.mono (hr found t hx)
        · exact fun _ _ hk => hk.of_leaves ht
        · exact fun _ hf => hf
      · intro error _ he
        exact kept_note (kept_failure he)
  · exact fun _ hf => hf

end Procedure

end TextGrammar
