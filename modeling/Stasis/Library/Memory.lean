import Mathlib.Logic.Function.Basic
import Mathlib.Data.Int.Order.Basic

/-!
Byte memory with signed 16-bit cells.

A memory gives a byte for every address. A cell is two bytes, the low one first,
and a store wraps its value to 16 bits. Cells whose bytes do not overlap are
independent of each other.
-/
namespace Memory
open Function

abbrev Bytes := Int → UInt8

@[irreducible] def wrap16 (v : Int) : Int := v.bmod 65536

def byteOf (v : Int) : UInt8 := UInt8.ofNat (v % 256).toNat

def load16 (m : Bytes) (a : Int) : Int :=
  wrap16 ((m a).toNat + 256 * (m (a + 1)).toNat)

def store16 (m : Bytes) (a v : Int) : Bytes :=
  update (update m a (byteOf v)) (a + 1) (byteOf (v / 256))

def copy (dst : Bytes) (d : Int) (src : Bytes) (s n : Int) : Bytes := fun a =>
  if d ≤ a ∧ a < d + n then src (s + (a - d)) else dst a

def fill (m : Bytes) (start stop : Int) (v : UInt8) : Bytes := fun a =>
  if start ≤ a ∧ a < stop then v else m a

def storeList (m : Bytes) (d : Int) (l : List UInt8) : Bytes := fun a =>
  if d ≤ a then l[(a - d).toNat]?.getD (m a) else m a

theorem wrap16_of_range (low : -32768 ≤ v) (high : v < 32768) : wrap16 v = v := by
  rw [wrap16, Int.bmod]
  omega

theorem load16_range (m : Bytes) (a : Int) : -32768 ≤ load16 m a ∧ load16 m a < 32768 := by
  rw [load16, wrap16, Int.bmod]
  omega

theorem wrap16_load16 (m : Bytes) (a : Int) : wrap16 (load16 m a) = load16 m a :=
  wrap16_of_range (load16_range m a).1 (load16_range m a).2

theorem toNat_byteOf (v : Int) : ((byteOf v).toNat : Int) = v % 256 := by
  have low := Int.emod_nonneg v (b := 256) (by decide)
  have high := Int.emod_lt_of_pos v (b := 256) (by decide)
  simp only [byteOf, UInt8.toNat_ofNat']
  omega

theorem load16_store16_self (m : Bytes) (a v : Int) :
    load16 (store16 m a v) a = wrap16 v := by
  have ne : a ≠ a + 1 := by omega
  simp only [load16, store16, update_self, update_of_ne ne, toNat_byteOf]
  rw [wrap16, wrap16, Int.bmod, Int.bmod]
  omega

variable {d : Int}

theorem store16_of_outside (m : Bytes) (v : Int) (h : b < a ∨ a + 2 ≤ b) :
    store16 m a v b = m b := by
  rw [store16, update_of_ne (by omega), update_of_ne (by omega)]

theorem load16_store16_of_apart (m : Bytes) (v : Int) (h : b + 2 ≤ a ∨ a + 2 ≤ b) :
    load16 (store16 m a v) b = load16 m b := by
  simp only [load16]
  rw [store16_of_outside m v (by omega), store16_of_outside m v (by omega)]

theorem load16_congr (low : m a = m' a) (high : m (a + 1) = m' (a + 1)) :
    load16 m a = load16 m' a := by
  simp only [load16, low, high]

theorem copy_of_outside (dst src : Bytes) (h : a < d ∨ d + n ≤ a) : copy dst d src s n a = dst a :=
  if_neg (by omega)

theorem copy_of_inside (dst src : Bytes) (low : d ≤ a) (high : a < d + n) :
    copy dst d src s n a = src (s + (a - d)) :=
  if_pos ⟨low, high⟩

theorem storeList_of_outside (m : Bytes) (h : a < d ∨ d + l.length ≤ a) :
    storeList m d l a = m a := by
  rw [storeList]
  split
  · rw [List.getElem?_eq_none (by omega)]
    rfl
  · rfl

theorem map_storeList (m : Bytes) (d : Int) (l : List UInt8) :
    ((List.range l.length).map fun j : Nat => storeList m d l (d + j)) = l := by
  apply List.ext_getElem
  · rw [List.length_map, List.length_range]
  · intro j _ high
    have index : (d + (j : Int) - d).toNat = j := by omega
    rw [List.getElem_map, List.getElem_range, storeList, if_pos (by omega), index,
      List.getElem?_eq_getElem high, Option.getD_some]

theorem fill_of_outside (m : Bytes) (v : UInt8) (h : a < start ∨ stop ≤ a) :
    fill m start stop v a = m a :=
  if_neg (by omega)

theorem fill_of_inside (m : Bytes) (v : UInt8) (low : start ≤ a) (high : a < stop) :
    fill m start stop v a = v :=
  if_pos ⟨low, high⟩

end Memory
