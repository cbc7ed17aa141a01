import Mathlib.Tactic.Ring

/-!
Numbers as bytes, the low byte first.
-/
namespace LittleEndian

def encode : Nat → Nat → List UInt8
  | 0, _ => []
  | n + 1, v => UInt8.ofNat (v % 256) :: encode n (v / 256)

def decode : List UInt8 → Nat
  | [] => 0
  | b :: l => b.toNat + 256 * decode l

@[simp] theorem length_encode (n v : Nat) : (encode n v).length = n := by
  induction n generalizing v with
  | zero => rfl
  | succ n ih => rw [encode, List.length_cons, ih]

theorem decode_encode (h : v < 256 ^ n) : decode (encode n v) = v := by
  induction n generalizing v with
  | zero => exact (Nat.lt_one_iff.mp h).symm
  | succ n ih =>
    have low : (UInt8.ofNat (v % 256)).toNat = v % 256 := by
      rw [UInt8.toNat_ofNat']
      exact Nat.mod_mod v 256
    have high : v / 256 < 256 ^ n := Nat.div_lt_of_lt_mul (by rw [Nat.pow_succ'] at h; exact h)
    rw [encode, decode, low, ih high]
    exact Nat.mod_add_div v 256

/-- Two's complement in `n` bytes. -/
def encodeInt (n : Nat) (v : Int) : List UInt8 := encode n (v % 256 ^ n).toNat

def decodeInt (l : List UInt8) : Int := Int.bmod (decode l) (256 ^ l.length)

@[simp] theorem length_encodeInt (n : Nat) (v : Int) : (encodeInt n v).length = n :=
  length_encode n _

theorem decodeInt_encodeInt {v : Int} (low : -(256 ^ n : Nat) ≤ 2 * v)
    (high : 2 * v < (256 ^ n : Nat)) : decodeInt (encodeInt n v) = v := by
  have pos : 0 < (256 ^ n : Nat) := Nat.pow_pos (by decide)
  have cast : ((256 ^ n : Nat) : Int) = (256 : Int) ^ n := by push_cast; rfl
  have small : (v % 256 ^ n).toNat < 256 ^ n := by
    have := Int.emod_lt_of_pos v (b := 256 ^ n) (by omega)
    omega
  have nonneg := Int.emod_nonneg v (b := 256 ^ n) (by omega)
  rw [decodeInt, encodeInt, decode_encode small, length_encode, Int.toNat_of_nonneg nonneg, ← cast,
    Int.emod_bmod]
  exact Int.bmod_eq_of_le_mul_two (by omega) (by omega)

end LittleEndian
