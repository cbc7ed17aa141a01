import Mathlib.Algebra.BigOperators.Ring.Finset
import Mathlib.Algebra.Order.BigOperators.Group.Finset
import Mathlib.Data.Int.Interval

/-!
Intervals of integers that do not overlap.
-/
namespace Intervals
variable {A : Type}

/-- Intervals that do not overlap are together no longer than an interval around them. -/
theorem sum_size_le (start size : A → Int) (nonneg : 0 ≤ bound) (positive : ∀ i ∈ s, 0 ≤ size i)
    (inside : ∀ i ∈ s, 0 ≤ start i ∧ start i + size i ≤ bound)
    (apart : ∀ i ∈ s, ∀ j ∈ s, i ≠ j →
      start i + size i ≤ start j ∨ start j + size j ≤ start i) :
    ∑ i ∈ s, size i ≤ bound := by
  classical
  have disjoint : (s : Set A).PairwiseDisjoint
      fun i => Finset.Ico (start i) (start i + size i) := by
    intro i hi j hj ne
    refine Finset.disjoint_left.mpr ?_
    intro x hx hx'
    rw [Finset.mem_Ico] at hx hx'
    have far := apart i hi j hj ne
    omega
  have within : s.biUnion (fun i => Finset.Ico (start i) (start i + size i)) ⊆
      Finset.Ico 0 bound := by
    intro x hx
    obtain ⟨i, hi, hx⟩ := Finset.mem_biUnion.mp hx
    have fits := inside i hi
    rw [Finset.mem_Ico] at hx ⊢
    omega
  have count := Finset.card_le_card within
  rw [Finset.card_biUnion fun i hi j hj ne => disjoint hi hj ne, Int.card_Ico] at count
  calc ∑ i ∈ s, size i
      = ∑ i ∈ s, ((Finset.Ico (start i) (start i + size i)).card : Int) := by
        apply Finset.sum_congr rfl
        intro i hi
        have := positive i hi
        rw [Int.card_Ico]
        omega
    _ = ((∑ i ∈ s, (Finset.Ico (start i) (start i + size i)).card : Nat) : Int) := by
        rw [Nat.cast_sum]
    _ ≤ bound := by omega

end Intervals
