import Stasis.Operations.LinearHash.FiniteMap

/-!
The parameters of linear hashing, and what changes as a table grows by one bucket.
-/
namespace Stasis.LinearHash
open List

def logTable256 : List Nat :=
  [0, 0, 1, 1, 2, 2, 2, 2, 3, 3, 3, 3, 3, 3, 3, 3] ++
    [4, 5, 5, 6, 6, 6, 6, 7, 7, 7, 7, 7, 7, 7, 7].flatMap (replicate 16)

def stasisLog232 (v : Nat) : Nat :=
  let tt := v >>> 16
  if tt ≠ 0 then
    let t := tt >>> 8
    if t ≠ 0 then 24 + logTable256.getD t 0 else 16 + logTable256.getD tt 0
  else
    let t := v >>> 8
    if t ≠ 0 then 8 + logTable256.getD t 0 else logTable256.getD v 0

def stasisLog264 (v : Nat) : Nat :=
  let tt := v >>> 32
  if tt ≠ 0 then stasisLog232 tt + 32 else stasisLog232 v

def stasisLinearHashGetSizeParams (desiredSize : Nat) : Nat × Nat :=
  let tableBits := stasisLog264 desiredSize + 1
  (tableBits, desiredSize - twoToThe (tableBits - 1))

theorem logTable256_eq (lt : t < 256) : logTable256.getD t 0 = Nat.log 2 t := by
  have table : ∀ t < 256, logTable256.getD t 0 = Nat.log2 t := by decide +kernel
  rw [table t lt, Nat.log2_eq_log_two]

theorem log_shiftRight (ne : v >>> k ≠ 0) : k + Nat.log 2 (v >>> k) = Nat.log 2 v := by
  rw [Nat.shiftRight_eq_div_pow] at ne ⊢
  have le : 2 ^ k ≤ v := (Nat.div_ne_zero_iff.mp ne).2
  rw [Nat.log_div_base_pow, Nat.add_sub_cancel' (Nat.le_log_of_pow_le (by decide) le)]

theorem stasisLog232_eq (lt : v < 2 ^ 32) : stasisLog232 v = Nat.log 2 v := by
  dsimp only [stasisLog232]
  split
  · next ne =>
    rw [← log_shiftRight ne]
    split
    · next ne =>
      rw [← log_shiftRight ne, logTable256_eq, ← Nat.add_assoc]
      simp only [Nat.shiftRight_eq_div_pow]
      omega
    · next eq =>
      rw [logTable256_eq]
      rw [Nat.shiftRight_eq_div_pow (v >>> 16)] at eq
      omega
  · next eq =>
    rw [Nat.shiftRight_eq_div_pow] at eq
    split
    · next ne =>
      rw [← log_shiftRight ne, logTable256_eq]
      rw [Nat.shiftRight_eq_div_pow]
      omega
    · next eq =>
      rw [logTable256_eq]
      rw [Nat.shiftRight_eq_div_pow] at eq
      omega

theorem getSizeParams_eq (pos : 1 ≤ size) (high : size ≤ 2 ^ 30) :
    stasisLinearHashGetSizeParams size =
      (Nat.log 2 size + 1, size - 2 ^ Nat.log 2 size) := by
  have small : size >>> 32 = 0 := by
    rw [Nat.shiftRight_eq_div_pow]
    omega
  have bits : Nat.log 2 size ≤ 30 :=
    (Nat.log_mono_right high).trans_eq (Nat.log_pow (by decide) 30)
  rw [stasisLinearHashGetSizeParams, stasisLog264, small, if_neg (not_not.mpr rfl),
    stasisLog232_eq (by omega), Nat.add_sub_cancel, twoToThe_eq (by omega)]

/-- A new bucket takes values from one other, and the size of a table gives its parameters. -/
theorem linear_hash_moves_only_split (unmixed : UInt32) {bits : Nat} (pos : 1 ≤ bits)
    (high : 2 ^ bits ≤ 2 ^ 30) (nextExtension : Nat) :
    stasisLinearHash unmixed bits nextExtension < 2 ^ (bits - 1) + nextExtension ∧
    (stasisLinearHash unmixed bits (nextExtension + 1) ≠
        stasisLinearHash unmixed bits nextExtension →
      stasisLinearHash unmixed bits nextExtension = nextExtension ∧
        stasisLinearHash unmixed bits (nextExtension + 1) = nextExtension + 2 ^ (bits - 1)) ∧
    stasisLinearHash unmixed bits (2 ^ (bits - 1)) = stasisLinearHash unmixed (bits + 1) 0 ∧
    ∀ size, 1 ≤ size → size ≤ 2 ^ 30 → ∃ tableBits next,
      stasisLinearHashGetSizeParams size = (tableBits, next) ∧
        2 ^ (tableBits - 1) + next = size ∧ next < 2 ^ (tableBits - 1) := by
  have bound : bits ≤ 30 := (Nat.pow_le_pow_iff_right (by decide)).mp high
  have half := Nat.two_pow_pos (bits - 1)
  have double : 2 ^ bits = 2 * 2 ^ (bits - 1) := by
    rw [← pow_succ', Nat.sub_add_cancel pos]
  simp only [stasisLinearHash_eq bound double]
  refine ⟨?_, fun moved => ?_, ?_, fun size pos high => ?_⟩
  · rw [Nat.add_comm]
    exact LinearHashing.address_lt half
  · have here := not_imp_comm.mp LinearHashing.address_step moved
    cases LinearHashing.address_split half here with
    | inl same => exact absurd (same.trans here.symm) moved
    | inr new => exact ⟨here, new⟩
  · rw [← LinearHashing.address_wrap half, LinearHashing.address, ← double, stasisLinearHash,
      Nat.add_sub_cancel, twoToThe_eq (by omega), Nat.and_two_pow_sub_one_eq_mod]
    rfl
  · have low := Nat.pow_log_le_self 2 (Nat.ne_of_gt pos)
    have above := Nat.lt_pow_succ_log_self (by decide : 1 < 2) size
    rw [Nat.pow_succ] at above
    refine ⟨_, _, getSizeParams_eq pos high, ?_, ?_⟩ <;> rw [Nat.add_sub_cancel] <;> omega

/-- Hash value 5 moves from bucket 1 of five to a sixth one. -/
theorem linear_hash_of_five : stasisLinearHashGetSizeParams 5 = (3, 1) ∧
    stasisLinearHash 5 3 1 = 1 ∧ stasisLinearHash 5 3 2 = 1 + 2 ^ (3 - 1) :=
  ⟨by decide, (linear_hash_moves_only_split 5 (by decide : 1 ≤ 3) (by decide) 1).2.1 (by decide)⟩

end Stasis.LinearHash
