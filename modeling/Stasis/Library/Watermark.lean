import Mathlib

/-!
Watermarks.

Positions are taken at a frontier that only advances and are given back in any order.
The mark is the least position that is still out, or the frontier if none is.
-/
namespace Watermark
variable {α : Type} [LinearOrder α]

structure IsMark (out : α → Prop) (frontier mark : α) : Prop where
  low : ∀ x, out x → mark ≤ x
  below : ∀ x, out x → x < frontier
  le : mark ≤ frontier
  tight : mark = frontier ∨ out mark

namespace IsMark
variable {frontier mark : α}

theorem start (frontier : α) (none : ∀ x, ¬out x) : IsMark out frontier frontier :=
  ⟨fun x h => absurd h (none x), fun x h => absurd h (none x), le_refl _, .inl rfl⟩

theorem congr (h : IsMark out frontier mark) (same : ∀ x, out' x ↔ out x) :
    IsMark out' frontier mark :=
  ⟨fun x hx => h.low x ((same x).mp hx), fun x hx => h.below x ((same x).mp hx), h.le,
    h.tight.imp_right (same mark).mpr⟩

/-- A position taken at the frontier leaves the mark where it is. -/
theorem take (h : IsMark out frontier mark) (advance : frontier < frontier')
    (taken : ∀ x, out' x ↔ x = frontier ∨ out x) : IsMark out' frontier' mark := by
  refine ⟨fun x hx => ?_, fun x hx => ?_, h.le.trans (le_of_lt advance), .inr ?_⟩
  · cases (taken x).mp hx with
    | inl eq => exact eq ▸ h.le
    | inr old => exact h.low x old
  · cases (taken x).mp hx with
    | inl eq => exact eq ▸ advance
    | inr old => exact (h.below x old).trans advance
  · exact (taken mark).mpr h.tight

/-- The mark of fewer positions is no lower. -/
theorem mono (h : IsMark out frontier mark) (h' : IsMark out' frontier mark')
    (fewer : ∀ x, out' x → out x) : mark ≤ mark' := by
  cases h'.tight with
  | inl eq => exact eq ▸ h.le
  | inr held => exact h.low mark' (fewer mark' held)

end IsMark
end Watermark
