import Mathlib.Data.Finset.Card
import Mathlib.Data.Int.Bitwise

/-!
Distances on a cycle of `n` places, counted forward. If `n` is a power of two, places and distances
are computed with a mask.
-/
namespace Wheel
variable {n a b j : Nat}

/-- The number of steps from `a` forward to `b`. -/
def dist (n a b : Nat) : Nat := if a ≤ b then b - a else b + n - a

/-- The place `j` steps after `a`, for less than a whole round. -/
def along (n a j : Nat) : Nat := if a + j < n then a + j else a + j - n

def next (n a : Nat) : Nat := along n a 1

theorem dist_lt (ha : a < n) (hb : b < n) : dist n a b < n := by
  unfold dist
  split <;> omega

@[simp]
theorem dist_self (n a : Nat) : dist n a a = 0 := by
  rw [dist, if_pos (Nat.le_refl a), Nat.sub_self]

section
variable (ha : a < n)
include ha

theorem along_lt (hj : j < n) : along n a j < n := by
  unfold along
  split <;> omega

theorem dist_along (hj : j < n) : dist n a (along n a j) = j := by
  unfold along dist
  split <;> split <;> omega

theorem along_dist (hb : b < n) : along n a (dist n a b) = b := by
  unfold along dist
  split <;> split <;> omega

theorem dist_inj (hb : b < n) (hc : c < n) (same : dist n a b = dist n a c) : b = c := by
  rw [← along_dist ha hb, same, along_dist ha hc]

theorem eq_of_dist_eq_zero (hb : b < n) (zero : dist n a b = 0) : b = a :=
  dist_inj ha hb ha (zero.trans (dist_self n a).symm)

theorem next_lt (two : 1 < n) : next n a < n := along_lt ha two

theorem next_ne (two : 1 < n) : next n a ≠ a := by
  unfold next along
  split <;> omega

theorem dist_next (hb : b < n) (short : dist n a b + 1 < n) :
    dist n a (next n b) = dist n a b + 1 := by
  unfold next along
  unfold dist at *
  split_ifs at * <;> omega

theorem dist_add (hb : b < n) (short : dist n a b + dist n b c < n) :
    dist n a c = dist n a b + dist n b c := by
  unfold dist at *
  split_ifs at * <;> omega

/-- From a place on the way. -/
theorem dist_split (hb : b < n) (hc : c < n) (way : dist n a b ≤ dist n a c) :
    dist n a c = dist n a b + dist n b c := by
  unfold dist at *
  split_ifs at * <;> omega

/-- To a place on the way. -/
theorem dist_split_right (hb : b < n) (way : dist n b c ≤ dist n a c) :
    dist n a c = dist n a b + dist n b c := by
  unfold dist at *
  split_ifs at * <;> omega

/-- The way from `a` to `b`, where `a` is behind `b` on the way to `c`, goes around. -/
theorem dist_around (closer : dist n a c < dist n b c) :
    dist n a b + dist n b c = n + dist n a c := by
  unfold dist at *
  split_ifs at * <;> omega

end

/-- A set that has the first `len` places after `a` has that many elements. -/
theorem le_card {s : Finset Nat} (ha : a < n) (short : len ≤ n)
    (mem : ∀ b < n, dist n a b < len → b ∈ s) : len ≤ s.card := by
  have maps : ∀ j ∈ Finset.range len, along n a j ∈ s := by
    intro j hj
    have lt := lt_of_lt_of_le (Finset.mem_range.mp hj) short
    apply mem _ (along_lt ha lt)
    rw [dist_along ha lt]
    exact Finset.mem_range.mp hj
  have inj : Set.InjOn (along n a) (Finset.range len) := by
    intro i hi j hj same
    have lt := lt_of_lt_of_le (Finset.mem_range.mp hi) short
    have lt' := lt_of_lt_of_le (Finset.mem_range.mp hj) short
    rw [← dist_along ha lt, same, dist_along ha lt']
  have count := Finset.card_le_card_of_injOn _ maps inj
  rwa [Finset.card_range] at count

section Mask
variable {k : Nat}

theorem land_mask (p : Int) (k : Nat) : p.land ((2 ^ k - 1 : Nat) : Int) = p % (2 ^ k : Nat) := by
  cases p with
  | ofNat m =>
    show ((m &&& (2 ^ k - 1) : Nat) : Int) = _
    rw [Nat.and_two_pow_sub_one_eq_mod]
    rfl
  | negSucc m =>
    show ((Nat.ldiff (2 ^ k - 1) m : Nat) : Int) = _
    have small : m % 2 ^ k < 2 ^ k := Nat.mod_lt _ (Nat.two_pow_pos k)
    have bits : Nat.ldiff (2 ^ k - 1) m = 2 ^ k - (m % 2 ^ k + 1) := by
      refine Nat.eq_of_testBit_eq fun i => ?_
      rw [Nat.testBit_ldiff, Nat.testBit_two_pow_sub_succ small, Nat.testBit_two_pow_sub_one,
        Nat.testBit_mod_two_pow]
      cases decide (i < k) <;> rfl
    rw [bits, Int.negSucc_emod]
    · omega
    · exact_mod_cast Nat.two_pow_pos k

/-- The place that a number is mapped to. -/
def masked (k : Nat) (p : Int) : Nat := (p.land ((2 ^ k - 1 : Nat) : Int)).toNat

theorem masked_lt (k : Nat) (p : Int) : masked k p < 2 ^ k := by
  have pos : (0 : Int) < (2 ^ k : Nat) := by exact_mod_cast Nat.two_pow_pos k
  have low := Int.emod_nonneg p pos.ne'
  have high := Int.emod_lt_of_pos p pos
  rw [masked, land_mask]
  omega

theorem masked_succ (ha : a < 2 ^ k) : masked k (a + 1) = next (2 ^ k) a := by
  rw [masked, land_mask]
  unfold next along
  split
  · rw [Int.emod_eq_of_lt] <;> omega
  · have last : (a : Int) + 1 = (2 ^ k : Nat) := by omega
    rw [last, Int.emod_self]
    omega

theorem masked_sub (ha : a < 2 ^ k) (hb : b < 2 ^ k) :
    masked k ((b : Int) - a) = dist (2 ^ k) a b := by
  rw [masked, land_mask]
  unfold dist
  split
  · rw [Int.emod_eq_of_lt] <;> omega
  · rw [← Int.add_emod_right, Int.emod_eq_of_lt] <;> omega

end Mask

end Wheel
