import TextGrammar.Error

/-!
# Outcomes

Applying a parser to a text ends in a value with the remaining text, or in an error.
-/

namespace TextGrammar

inductive Outcome (α : Type) where
  | success (value : α) (rest : Text)
  | failure (error : ParseError)
  deriving DecidableEq

namespace Outcome

variable {α β γ : Type}

def map (f : α → β) : Outcome α → Outcome β
  | success value rest => success (f value) rest
  | failure error => failure error

@[simp] theorem map_success (f : α → β) (value : α) (rest : Text) :
    map f (success value rest) = success (f value) rest := rfl

@[simp] theorem map_failure (f : α → β) (error : ParseError) :
    map f (failure error) = failure error := rfl

theorem map_map (f : α → β) (g : β → γ) (o : Outcome α) : map g (map f o) = map (g ∘ f) o := by
  cases o <;> rfl

theorem map_eq_success {f : α → β} {o : Outcome α} {value : β} {rest : Text}
    (h : map f o = success value rest) : ∃ a, o = success a rest ∧ f a = value := by
  cases o with
  | success a r =>
    obtain ⟨rfl, rfl⟩ := success.inj h
    exact ⟨a, rfl, rfl⟩
  | failure => contradiction

end Outcome

end TextGrammar
