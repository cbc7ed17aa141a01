import Mathlib.Algebra.Order.BigOperators.Group.Finset
import Mathlib.Algebra.BigOperators.Ring.Finset

/-!
Counts over finitely many parties, each of which has a value of its own.
-/
namespace Tally
open Function
variable {X A : Type} [Fintype X]

/-- What a function says about all the values together. -/
def tally (f : A → Int) (g : X → A) : Int := ∑ x, f (g x)

variable {g : X → A}

theorem tally_update [DecidableEq X] (f : A → Int) (g : X → A) (x : X) (a : A) :
    tally f (update g x a) = tally f g - f (g x) + f a := by
  have comp : (fun y => f (update g x a y)) = update (fun y => f (g y)) x (f a) :=
    Function.comp_update f g x a
  have split := Finset.sum_update_of_mem (Finset.mem_univ x) (fun y => f (g y)) (f a)
  have whole := Finset.add_sum_erase Finset.univ (fun y => f (g y)) (Finset.mem_univ x)
  rw [tally, tally, comp, split, ← Finset.erase_eq]
  omega

theorem tally_update_same [DecidableEq X] (same : f a = f (g x)) :
    tally f (update g x a) = tally f g := by
  rw [tally_update, same]
  omega

theorem le_tally (nonneg : ∀ y, 0 ≤ f (g y)) (x : X) : f (g x) ≤ tally f g :=
  Finset.single_le_sum (fun y _ => nonneg y) (Finset.mem_univ x)

/-- Two parties together count for no more than all. -/
theorem add_le_tally [DecidableEq X] (nonneg : ∀ y, 0 ≤ f (g y)) (ne : x ≠ y) :
    f (g x) + f (g y) ≤ tally f g := by
  rw [← Finset.sum_pair (f := fun z => f (g z)) ne]
  exact Finset.sum_le_univ_sum_of_nonneg nonneg

/-- A party for which one count is ahead of the other puts the whole count ahead. -/
theorem tally_add_le (le : ∀ y, h (g y) ≤ f (g y)) (x : X) :
    tally h g + (f (g x) - h (g x)) ≤ tally f g := by
  have diff : f (g x) - h (g x) ≤ tally (fun a => f a - h a) g :=
    le_tally (f := fun a => f a - h a) (fun y => Int.sub_nonneg.mpr (le y)) x
  have sub : tally (fun a => f a - h a) g = tally f g - tally h g := Finset.sum_sub_distrib ..
  omega

/-- A count of zeros. -/
theorem tally_zero (zero : ∀ y, f (g y) = 0) : tally f g = 0 :=
  Finset.sum_eq_zero fun y _ => zero y

/-- A party that counts for nothing can be left out. -/
theorem tally_erase [DecidableEq X] (zero : f (g x) = 0) :
    tally f g = ∑ y ∈ Finset.univ.erase x, f (g y) := by
  rw [tally, ← Finset.add_sum_erase Finset.univ (fun y => f (g y)) (Finset.mem_univ x), zero,
    Int.zero_add]

/-- The count of those with a property. -/
theorem tally_card (p : X → Prop) [DecidablePred p] (one : ∀ y, f (g y) = if p y then 1 else 0) :
    tally f g = (Finset.univ.filter p).card := by
  rw [tally, Finset.sum_congr rfl fun y _ => one y, Finset.sum_boole]

end Tally
