import TextGrammar.Run

/-!
# What a run may end in

A condition on the values that a run may return and on the faults that may stop it. Nothing is
asked of a run that is cut off, so the condition can be kept at every allowance.
-/

namespace TextGrammar.Run

variable {α β : Type}

def Ends (Q : α → Prop) (F : Fault → Prop) (x : Run α) : Prop :=
  match x.ending with
  | .returns a => Q a
  | .faults fault => F fault
  | .unfinished => True

theorem ends_iff {Q : α → Prop} {F : Fault → Prop} {x : Run α} :
    x.Ends Q F ↔
      (∀ a, x.ending = .returns a → Q a) ∧ ∀ fault, x.ending = .faults fault → F fault := by
  obtain ⟨log, ending⟩ := x
  cases ending <;> simp [Ends]

theorem Ends.mono {Q Q' : α → Prop} {F F' : Fault → Prop} {x : Run α} (h : x.Ends Q F)
    (hQ : ∀ a, x.ending = .returns a → Q a → Q' a) (hF : ∀ fault, F fault → F' fault) :
    x.Ends Q' F' := by
  rw [ends_iff] at h ⊢
  refine ⟨?_, ?_⟩
  · intro a ha
    exact hQ a ha (h.1 a ha)
  · intro fault hf
    exact hF fault (h.2 fault hf)

@[simp] theorem ending_pure (a : α) : (pure a : Run α).ending = .returns a := rfl

theorem ending_bind (x : Run α) (f : α → Run β) :
    (x >>= f).ending = match x.ending with
      | .returns a => (f a).ending
      | .faults fault => .faults fault
      | .unfinished => .unfinished := by
  change (Run.bind x f).ending = _
  obtain ⟨log, ending⟩ := x
  cases ending <;> rfl

theorem ending_bind_eq_returns_iff {x : Run α} {f : α → Run β} {b : β} :
    (x >>= f).ending = .returns b ↔ ∃ a, x.ending = .returns a ∧ (f a).ending = .returns b := by
  rw [ending_bind]
  cases x.ending <;> simp

theorem ending_bind_congr {x y : Run α} {f g : α → Run β} (hxy : x.ending = y.ending)
    (hfg : ∀ a, (f a).ending = (g a).ending) : (x >>= f).ending = (y >>= g).ending := by
  rw [ending_bind, ending_bind, hxy]
  cases y.ending with
  | returns a => exact hfg a
  | faults fault => rfl
  | unfinished => rfl

theorem bind_eq_of_returns {x : Run α} {a : α} (f : α → Run β) (h : x.ending = .returns a) :
    x >>= f = ⟨x.log ++ (f a).log, (f a).ending⟩ := by
  change Run.bind x f = _
  obtain ⟨log, ending⟩ := x
  obtain rfl : ending = .returns a := h
  simp only [Run.bind, joinLogs_eq]

theorem bind_eq_of_faults {x : Run α} {fault : Fault} (f : α → Run β)
    (h : x.ending = .faults fault) : x >>= f = ⟨x.log, .faults fault⟩ := by
  change Run.bind x f = _
  obtain ⟨log, ending⟩ := x
  obtain rfl : ending = .faults fault := h
  rfl

theorem bind_eq_of_unfinished {x : Run α} (f : α → Run β) (h : x.ending = .unfinished) :
    x >>= f = ⟨x.log, .unfinished⟩ := by
  change Run.bind x f = _
  obtain ⟨log, ending⟩ := x
  obtain rfl : ending = .unfinished := h
  rfl

/-- What follows a run matters only at the value that it returns. -/
theorem bind_congr_of_returns {x : Run α} {f g : α → Run β}
    (h : ∀ a, x.ending = .returns a → f a = g a) : x >>= f = x >>= g := by
  cases hx : x.ending with
  | returns a => rw [bind_eq_of_returns f hx, bind_eq_of_returns g hx, h a hx]
  | faults fault => rw [bind_eq_of_faults f hx, bind_eq_of_faults g hx]
  | unfinished => rw [bind_eq_of_unfinished f hx, bind_eq_of_unfinished g hx]

theorem log_bind_congr {x : Run α} {f g : α → Run β}
    (h : ∀ a, x.ending = .returns a → (f a).log = (g a).log) :
    (x >>= f).log = (x >>= g).log := by
  cases hx : x.ending with
  | returns a => rw [bind_eq_of_returns f hx, bind_eq_of_returns g hx, h a hx]
  | faults fault => rw [bind_eq_of_faults f hx, bind_eq_of_faults g hx]
  | unfinished => rw [bind_eq_of_unfinished f hx, bind_eq_of_unfinished g hx]

theorem log_bind_pure (x : Run α) (f : α → β) : (x >>= fun a => pure (f a)).log = x.log := by
  cases hx : x.ending with
  | returns a =>
    rw [bind_eq_of_returns _ hx]
    exact List.append_nil _
  | faults fault => rw [bind_eq_of_faults _ hx]
  | unfinished => rw [bind_eq_of_unfinished _ hx]

theorem length_log_bind_le {x : Run α} {f : α → Run β} {limit : Nat} (hx : x.log.length ≤ limit)
    (hf : ∀ a, x.ending = .returns a → x.log.length + (f a).log.length ≤ limit) :
    (x >>= f).log.length ≤ limit := by
  cases hending : x.ending with
  | returns a =>
    rw [bind_eq_of_returns f hending, List.length_append]
    exact hf a hending
  | faults fault => rwa [bind_eq_of_faults f hending]
  | unfinished => rwa [bind_eq_of_unfinished f hending]

@[simp] theorem ends_pure {Q : α → Prop} {F : Fault → Prop} {a : α} :
    (pure a : Run α).Ends Q F ↔ Q a := Iff.rfl

@[simp] theorem ends_fault {Q : α → Prop} {F : Fault → Prop} {f : Fault} :
    (fault f : Run α).Ends Q F ↔ F f := Iff.rfl

theorem ends_cutOff (Q : α → Prop) (F : Fault → Prop) : (cutOff : Run α).Ends Q F := trivial

theorem ends_bind {Q : β → Prop} {F : Fault → Prop} {x : Run α} {f : α → Run β} :
    (x >>= f).Ends Q F ↔ x.Ends (fun a => (f a).Ends Q F) F := by
  unfold Ends
  rw [ending_bind]
  cases x.ending <;> rfl

@[simp] theorem ends_note_bind {Q : α → Prop} {F : Fault → Prop} {e : Event} {f : Unit → Run α} :
    (note e >>= f).Ends Q F ↔ (f ()).Ends Q F := ends_bind

end TextGrammar.Run
