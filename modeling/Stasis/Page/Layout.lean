import Stasis.Library.Threaded
import Stasis.Page.Slotted

/-!
What a slotted page holds, and when it is well formed.

A slot of the directory is live or vacant. The layout of a page is where its live
records are, and `FreeList` gives the slots that the free list visits. While a
slot is allocated it is neither live nor on the free list: such a slot is the
hole of the free list.
-/
namespace Stasis.Slotted
open Memory

theorem recordTypeToSize_eq_some_iff :
    recordTypeToSize type = some size ↔
      0 ≤ type ∧ size = type ∨ type = blobSlot ∧ size = sizeofBlobRecord := by
  by_cases nonneg : 0 ≤ type
  · have ne : type ≠ blobSlot := by simp only [blobSlot]; omega
    simp only [recordTypeToSize, nonneg, ne, if_true, Option.some.injEq, true_and, false_and,
      or_false, eq_comm]
  · obtain ⟨n, rfl⟩ := Int.eq_negSucc_of_lt_zero (Int.not_le.mp nonneg)
    rw [recordTypeToSize, if_neg nonneg]
    match n with
    | 0 | 1 | 2 => simp [slotTypeLengths, blobSlot, sizeofBlobRecord, eq_comm]
    | n + 3 =>
      have ne : Int.negSucc (n + 3) ≠ blobSlot := by simp only [blobSlot]; omega
      show (none : Option Int) = some size ↔ _
      simp [ne]

theorem int16FromEnd_set_self (p : Bytes) (k v : Int) :
    int16FromEnd (setInt16FromEnd p k v) k = wrap16 v := by
  rw [int16FromEnd, setInt16FromEnd]
  exact load16_store16_self p _ v

theorem int16FromEnd_set_of_ne (p : Bytes) (v : Int) (ne : j ≠ k) :
    int16FromEnd (setInt16FromEnd p k v) j = int16FromEnd p j := by
  rw [int16FromEnd, int16FromEnd, setInt16FromEnd]
  exact load16_store16_of_apart p v (by omega)

theorem wrap16_int16FromEnd (p : Bytes) (k : Int) :
    wrap16 (int16FromEnd p k) = int16FromEnd p k := by
  rw [int16FromEnd]
  exact wrap16_load16 p _

theorem setInt16FromEnd_of_below (p : Bytes) (v : Int) (below : a < usableSizeOfPage - 2 * k) :
    setInt16FromEnd p k v a = p a := by
  rw [setInt16FromEnd]
  exact store16_of_outside p v (.inl below)

theorem ne_invalidSlot (nonneg : 0 ≤ i) : i ≠ invalidSlot := by
  simp only [invalidSlot]
  omega

theorem wrap16_invalidSlot : wrap16 invalidSlot = invalidSlot :=
  wrap16_of_range (by decide) (by decide)

theorem slotListStart_eq (p : Bytes) : slotListStart p = 4078 - 4 * numslots p := by
  simp only [slotListStart, usableSizeOfPage]
  omega

def Live (p : Bytes) (i : Int) : Prop :=
  0 ≤ i ∧ i < numslots p ∧ slot p i ≠ invalidSlot

instance (p : Bytes) (i : Int) : Decidable (Live p i) :=
  inferInstanceAs (Decidable (_ ∧ _ ∧ _))

def Vacant (p : Bytes) (i : Int) : Prop :=
  0 ≤ i ∧ i < numslots p ∧ slot p i = invalidSlot

section
variable (p : Bytes)

/-- The physical size of the record in slot `i`. -/
def extent (i : Int) : Int := (recordTypeToSize (slotLength p i)).getD 0

/-- The type and the bytes of the record in slot `i`. -/
def record (i : Int) : Option (Int × List UInt8) :=
  if Live p i then some (slotLength p i, readRecord p i (extent p i)) else none

structure Layout : Prop where
  numslots_nonneg : 0 ≤ numslots p
  freespace_nonneg : 0 ≤ freespace p
  freespace_le : freespace p ≤ slotListStart p
  sized : ∀ i, Live p i → recordTypeToSize (slotLength p i) = some (extent p i)
  positive : ∀ i, Live p i → 1 ≤ extent p i
  inside : ∀ i, Live p i → 0 ≤ slot p i ∧ slot p i + extent p i ≤ freespace p
  apart : ∀ i j, Live p i → Live p j → i ≠ j →
    slot p i + extent p i ≤ slot p j ∨ slot p j + extent p j ≤ slot p i

/-- A layout in which records may also be empty. The place of an empty record does not matter, as
long as it is not behind the free space. -/
structure Arranged : Prop where
  numslots_nonneg : 0 ≤ numslots p
  freespace_nonneg : 0 ≤ freespace p
  freespace_le : freespace p ≤ slotListStart p
  sized : ∀ i, Live p i → recordTypeToSize (slotLength p i) = some (extent p i)
  inside : ∀ i, Live p i → slot p i + extent p i ≤ freespace p
  nonneg : ∀ i, Live p i → 0 < extent p i → 0 ≤ slot p i
  apart : ∀ i j, Live p i → Live p j → i ≠ j → 0 < extent p i → 0 < extent p j →
    slot p i + extent p i ≤ slot p j ∨ slot p j + extent p j ≤ slot p i

/-- The free list visits the slots in `l`: every vacant slot but the hole, once. -/
structure FreeList (hole : Int) (l : List Int) : Prop where
  threaded : Threaded (slotLength p) invalidSlot invalidSlot l
  nodup : l.Nodup
  mem : ∀ i, i ∈ l ↔ Vacant p i ∧ i ≠ hole

structure Valid : Prop extends Layout p where
  list : ∃ l, FreeList p invalidSlot l

/-- A valid page, but for empty records. -/
structure Sound : Prop extends Arranged p where
  list : ∃ l, FreeList p invalidSlot l

end

theorem size_nonneg (known : recordTypeToSize type = some size) : 0 ≤ size := by
  rcases recordTypeToSize_eq_some_iff.mp known with ⟨nonneg, same⟩ | ⟨_, same⟩
  · omega
  · rw [same]
    decide

theorem type_range (known : recordTypeToSize type = some size) (high : size < 32768) :
    -32768 ≤ type ∧ type < 32768 := by
  cases recordTypeToSize_eq_some_iff.mp known with
  | inl normal => omega
  | inr blob => simp only [blobSlot] at blob; omega

theorem Layout.arranged (h : Layout p) : Arranged p :=
  ⟨h.numslots_nonneg, h.freespace_nonneg, h.freespace_le, h.sized,
    fun i live => (h.inside i live).2, fun i live _ => (h.inside i live).1,
    fun i j live live' ne _ _ => h.apart i j live live' ne⟩

theorem Arranged.layout (h : Arranged p) (positive : ∀ i, Live p i → 1 ≤ extent p i) : Layout p :=
  ⟨h.numslots_nonneg, h.freespace_nonneg, h.freespace_le, h.sized, positive,
    fun i live => ⟨h.nonneg i live (positive i live), h.inside i live⟩,
    fun i j live live' ne => h.apart i j live live' ne (positive i live) (positive j live')⟩

theorem Valid.sound (h : Valid p) : Sound p := ⟨h.arranged, h.list⟩

theorem Sound.valid (h : Sound p) (positive : ∀ i, Live p i → 1 ≤ extent p i) : Valid p :=
  ⟨h.layout positive, h.list⟩

theorem FreeList.cells_nodup (list : FreeList p hole l) : (invalidSlot :: l).Nodup := by
  refine List.nodup_cons.mpr ⟨?_, list.nodup⟩
  intro h
  exact absurd ((list.mem _).mp h).1.1 (by decide)

/-- The end of the free list is the head of the directory or a vacant slot. -/
def Tail (p : Bytes) (last : Int) : Prop := last = invalidSlot ∨ Vacant p last

theorem Tail.range (tail : Tail p last) (nonneg : 0 ≤ numslots p) :
    -1 ≤ last ∧ last < numslots p := by
  cases tail with
  | inl eq => rw [eq]; simp only [invalidSlot]; omega
  | inr cell => exact ⟨by have := cell.1; omega, cell.2.1⟩

theorem Tail.ne_live (tail : Tail p last) (live : Live p i) : i ≠ last := by
  intro eq
  cases tail with
  | inl none => exact absurd (eq.trans none ▸ live.1) (by decide)
  | inr cell => exact live.2.2 (eq ▸ cell.2.2)

theorem FreeList.tail (list : FreeList p hole l) (mem : c ∈ invalidSlot :: l) : Tail p c :=
  (List.mem_cons.mp mem).imp_right fun mem => ((list.mem c).mp mem).1

theorem FreeList.head (list : FreeList p hole l) : Tail p (freelist p) := by
  cases l with
  | nil => exact .inl list.threaded
  | cons c l =>
    have head : freelist p = c := list.threaded.1
    exact head ▸ list.tail (.tail _ (.head _))

theorem Arranged.numslots_le (h : Arranged p) : numslots p ≤ 1019 := by
  have start := slotListStart_eq p
  have low := h.freespace_nonneg
  have high := h.freespace_le
  omega

theorem Arranged.restrict (h : Arranged p) (numslots_nonneg : 0 ≤ numslots p')
    (freespace_nonneg : 0 ≤ freespace p') (freespace_le : freespace p' ≤ slotListStart p')
    (kept : ∀ i, Live p' i → Live p i ∧ slot p' i = slot p i ∧
      recordTypeToSize (slotLength p' i) = recordTypeToSize (slotLength p i))
    (inside : ∀ i, Live p' i → slot p i + extent p i ≤ freespace p') : Arranged p' := by
  have same : ∀ i, Live p' i → extent p' i = extent p i := by
    intro i live
    simp only [extent, (kept i live).2.2]
  refine ⟨numslots_nonneg, freespace_nonneg, freespace_le, ?_, ?_, ?_, ?_⟩
  · intro i live
    rw [(kept i live).2.2, same i live]
    exact h.sized i (kept i live).1
  · intro i live
    rw [same i live, (kept i live).2.1]
    exact inside i live
  · intro i live
    rw [same i live, (kept i live).2.1]
    exact h.nonneg i (kept i live).1
  · intro i j live live' ne
    rw [same i live, same j live', (kept i live).2.1, (kept j live').2.1]
    exact h.apart i j (kept i live).1 (kept j live').1 ne

theorem record_congr (live : Live p' i ↔ Live p i)
    (length : Live p i → slotLength p' i = slotLength p i)
    (bytes : Live p i → ∀ j, 0 ≤ j → j < extent p i → p' (slot p' i + j) = p (slot p i + j)) :
    record p' i = record p i := by
  by_cases h : Live p i
  · have same : extent p' i = extent p i := by simp only [extent, length h]
    have copied : ∀ j ∈ List.range (extent p i).toNat,
        p' (slot p' i + j) = p (slot p i + j) := by
      intro j hj
      have bound := List.mem_range.mp hj
      exact bytes h _ (by omega) (by omega)
    rw [record, record, if_pos h, if_pos (live.mpr h), length h, same, readRecord,
      readRecord, List.map_congr_left copied]
  · rw [record, record, if_neg h, if_neg (fun h' => h (live.mp h'))]

theorem record_eq_none (h : ¬ Live p i) : record p i = none :=
  if_neg h

theorem extent_of_record_eq (same : record p' i = record p i) (live : Live p' i) :
    Live p i ∧ extent p' i = extent p i := by
  by_cases live' : Live p i
  · rw [record, record, if_pos live, if_pos live'] at same
    have type : slotLength p' i = slotLength p i := congrArg Prod.fst (Option.some.inj same)
    exact ⟨live', by rw [extent, extent, type]⟩
  · rw [record, record, if_pos live, if_neg live'] at same
    cases same

theorem record_isSome_iff : (record p i).isSome ↔ Live p i := by
  by_cases h : Live p i <;> simp [record, h]

end Stasis.Slotted
