import Mathlib.Data.Nat.Init

/-!
Addresses of linear hashing.

A table of `n` addresses grows to twice its size one address after another. When the first
`s` are split, hash values that belong to them are taken modulo the new size. Splitting one
more address moves values from it to the address behind the last one, and no others.
-/
namespace LinearHashing

def address (h n s : Nat) : Nat := if h % n < s then h % (2 * n) else h % n

theorem mod_two_mul (h n : Nat) : h % (2 * n) = h % n ∨ h % (2 * n) = h % n + n := by
  rw [Nat.mul_comm, Nat.mod_mul]
  rcases Nat.mod_two_eq_zero_or_one (h / n) with even | odd
  · rw [even]
    exact .inl rfl
  · rw [odd, Nat.mul_one]
    exact .inr rfl

theorem address_lt (pos : 0 < n) : address h n s < s + n := by
  have small := Nat.mod_lt h pos
  rw [address]
  split
  · have := mod_two_mul h n
    omega
  · omega

/-- The other addresses keep their values. -/
theorem address_step (ne : address h n s ≠ s) : address h n (s + 1) = address h n s := by
  rw [address] at ne ⊢
  rw [address]
  by_cases before : h % n < s
  · rw [if_pos before, if_pos (by omega)]
  · rw [if_neg before] at ne ⊢
    exact if_neg (by omega)

/-- The values of the address that is split stay, or go to the address behind the last one. -/
theorem address_split (pos : 0 < n) (here : address h n s = s) :
    address h n (s + 1) = s ∨ address h n (s + 1) = s + n := by
  have both := mod_two_mul h n
  rw [address] at here ⊢
  by_cases before : h % n < s
  · rw [if_pos before] at here
    rw [if_pos (by omega)]
    exact .inl here
  · rw [if_neg before] at here
    rw [if_pos (by omega)]
    omega

/-- With all addresses split, the table has its new size. -/
theorem address_wrap (pos : 0 < n) : address h (2 * n) 0 = address h n n := by
  rw [address, address, if_neg (Nat.not_lt_zero _), if_pos (Nat.mod_lt h pos)]

end LinearHashing
