import Stasis.Library.Memory

/-!
Files: a length, and a byte for every position.
-/
namespace Memory
open List

/-- The `n` bytes from address `a` on. -/
def loadList (m : Bytes) (a : Int) (n : Nat) : List UInt8 :=
  (List.range n).map fun j : Nat => m (a + j)

@[simp] theorem length_loadList (m : Bytes) (a : Int) (n : Nat) : (loadList m a n).length = n := by
  rw [loadList, length_map, length_range]

theorem loadList_congr (h : ∀ j : Nat, j < n → m (a + j) = m' (a' + j)) :
    loadList m a n = loadList m' a' n :=
  map_congr_left fun j mem => h j (mem_range.mp mem)

theorem loadList_storeList (m : Bytes) (d : Int) (l : List UInt8) :
    loadList (storeList m d l) d l.length = l :=
  map_storeList m d l

theorem loadList_add (m : Bytes) (a : Int) (n k : Nat) :
    loadList m a (n + k) = loadList m a n ++ loadList m (a + n) k := by
  rw [loadList, range_add, map_append, map_map]
  refine congrArg (loadList m a n ++ ·) (map_congr_left fun j _ => ?_)
  rw [Function.comp_apply, Int.natCast_add, Int.add_assoc]

structure File where
  len : Int
  byte : Bytes

namespace File

def empty : File := ⟨0, fun _ => 0⟩

/-- Write the `n` bytes of `src` from `s` on at position `pos`. -/
def write (f : File) (pos : Int) (src : Bytes) (s n : Int) : File :=
  ⟨max f.len (pos + n), copy f.byte pos src s n⟩

/-- Read `n` bytes at position `pos`, if the file has them all. -/
def read (f : File) (pos : Int) (n : Nat) : Option (List UInt8) :=
  if pos + n ≤ f.len then some (loadList f.byte pos n) else none

end File
end Memory
