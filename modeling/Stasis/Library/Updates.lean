import Mathlib.Logic.Function.Basic

/-!
Functions that are changed at one place.
-/
namespace Updates
open Function
variable {α β : Type} [DecidableEq α] {f : α → β}

theorem update_cases {P : β → Prop} (same : b = a → P v) (other : b ≠ a → P (f b)) :
    P (update f a v b) := by
  by_cases eq : b = a
  · rw [eq, update_self]
    exact same eq
  · rw [update_of_ne eq]
    exact other eq

/-- A value after the change is the new one, or stands elsewhere. -/
theorem of_update {P : β → Prop} : P (update f a v b) → b = a ∧ P v ∨ b ≠ a ∧ P (f b) :=
  update_cases (P := fun w => P w → b = a ∧ P v ∨ b ≠ a ∧ P (f b))
    (fun eq h => .inl ⟨eq, h⟩) fun ne h => .inr ⟨ne, h⟩

theorem update_eq_cases (h : update f a v b = w) : b = a ∧ v = w ∨ b ≠ a ∧ f b = w :=
  of_update (P := (· = w)) h

end Updates
