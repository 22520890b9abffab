import Mathlib.Data.List.Forall2
import TextGrammar.Parser.Several
import TextGrammar.Proofs.Ends

/-!
# The best of several outcomes

The nearest choice takes the success that leaves the most bytes, and of equals the first. So every
success listed before it leaves fewer bytes, and none behind it leaves more.
-/

namespace TextGrammar.Parser

variable {α : Type}

def best : List (Outcome α) → Option (α × Text)
  | [] => none
  | o :: outcomes => nearer o (best outcomes)

theorem ending_leastConsuming {alternatives : List (Parser α)} {outcomes : List (Outcome α)}
    {s : Text} (h : List.Forall₂ (fun p o => (p s).ending = .returns o) alternatives outcomes) :
    (leastConsuming alternatives s).ending = .returns (best outcomes) := by
  induction h with
  | nil => rfl
  | cons hp _ ih =>
    refine Run.ending_bind_eq_returns_iff.2 ⟨_, hp, ?_⟩
    exact Run.ending_bind_eq_returns_iff.2 ⟨_, ih, rfl⟩

theorem ending_nearest_eq_success_iff {alternatives : List (Parser α)}
    {outcomes : List (Outcome α)} {s rest : Text} {value : α}
    (h : List.Forall₂ (fun p o => (p s).ending = .returns o) alternatives outcomes) :
    (nearest alternatives s).ending = .returns (.success value rest) ↔
      best outcomes = some (value, rest) := by
  unfold nearest
  rw [Run.ending_bind, ending_leastConsuming h]
  cases best outcomes with
  | none => simp
  | some found => simp [Prod.ext_iff]

variable {outcomes : List (Outcome α)}

theorem best_eq_none_iff : best outcomes = none ↔ ∀ o ∈ outcomes, ∃ error, o = .failure error := by
  induction outcomes with
  | nil => simp [best]
  | cons o outcomes ih =>
    rw [best, List.forall_mem_cons, ← ih]
    cases o with
    | failure error => simp [nearer]
    | success value rest =>
      cases best outcomes with
      | none => simp [nearer]
      | some found =>
        simp only [nearer]
        split
        · simp
        · simp

/-- A success that leaves `rest` is the best one where it stands: those before it leave less, and
those behind it leave no more. -/
def BestAt (earlier : List (Outcome α)) (rest : Text) (later : List (Outcome α)) : Prop :=
  (∀ v r, .success v r ∈ earlier → Text.bytes r < Text.bytes rest) ∧
    ∀ v r, .success v r ∈ later → Text.bytes r ≤ Text.bytes rest

variable {earlier later : List (Outcome α)} {found : α × Text} {v value : α} {r rest : Text}

theorem BestAt.bytes_le (h : BestAt earlier rest later)
    (hmem : .success v r ∈ earlier ++ .success value rest :: later) :
    Text.bytes r ≤ Text.bytes rest := by
  rcases List.mem_append.1 hmem with hmem | hmem
  · exact Nat.le_of_lt (h.1 v r hmem)
  · rcases List.mem_cons.1 hmem with heq | hmem
    · cases heq
      exact Nat.le_refl _
    · exact h.2 v r hmem

theorem exists_bestAt (h : best outcomes = some found) :
    ∃ earlier later, outcomes = earlier ++ .success found.1 found.2 :: later ∧
      BestAt earlier found.2 later := by
  induction outcomes generalizing found with
  | nil => cases h
  | cons o outcomes ih =>
    rw [best] at h
    cases o with
    | failure error =>
      obtain ⟨earlier, later, rfl, hbest⟩ := ih h
      refine ⟨.failure error :: earlier, later, rfl, ?_, hbest.2⟩
      intro v r hmem
      exact hbest.1 v r ((List.mem_cons.1 hmem).resolve_left nofun)
    | success v r =>
      cases hb : best outcomes with
      | none =>
        rw [hb] at h
        cases h
        refine ⟨[], outcomes, rfl, nofun, ?_⟩
        intro v' r' hmem
        obtain ⟨error, heq⟩ := best_eq_none_iff.1 hb _ hmem
        cases heq
      | some other =>
        obtain ⟨earlier, later, rfl, hbest⟩ := ih hb
        rw [hb, nearer] at h
        split at h
        · next hle =>
          cases h
          exact ⟨[], _, rfl, nofun, fun v' r' hmem => Nat.le_trans (hbest.bytes_le hmem) hle⟩
        · next hlt =>
          cases h
          refine ⟨.success v r :: earlier, later, rfl, ?_, hbest.2⟩
          intro v' r' hmem
          rcases List.mem_cons.1 hmem with heq | hmem
          · cases heq
            exact Nat.lt_of_not_le hlt
          · exact hbest.1 v' r' hmem

theorem best_of_bestAt (h : BestAt earlier rest later) :
    best (earlier ++ .success value rest :: later) = some (value, rest) := by
  induction earlier with
  | nil =>
    rw [List.nil_append, best]
    cases hb : best later with
    | none => rfl
    | some other =>
      obtain ⟨e, l, rfl, _⟩ := exists_bestAt hb
      have hle : Text.bytes other.2 ≤ Text.bytes rest := h.2 other.1 other.2 (by simp)
      rw [nearer, if_pos hle]
  | cons o earlier ih =>
    have hb := ih ⟨fun v r hmem => h.1 v r (List.mem_cons_of_mem _ hmem), h.2⟩
    rw [List.cons_append, best, hb]
    cases o with
    | failure error => rfl
    | success v r =>
      have hlt : Text.bytes r < Text.bytes rest := h.1 v r List.mem_cons_self
      rw [nearer, if_neg (Nat.not_le_of_lt hlt)]

theorem best_eq_some_iff :
    best outcomes = some (value, rest) ↔
      ∃ earlier later, outcomes = earlier ++ .success value rest :: later ∧
        BestAt earlier rest later := by
  constructor
  · exact exists_bestAt
  · rintro ⟨earlier, later, rfl, h⟩
    exact best_of_bestAt h

end TextGrammar.Parser
