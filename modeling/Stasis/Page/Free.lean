import Stasis.Page.Layout

/-!
Initialising a page, setting the type of a record and freeing a slot.
-/
namespace Stasis.Slotted
open Memory

theorem initializePageRaw_valid (m : Bytes) : Valid (initializePageRaw m) := by
  have slots : numslots (initializePageRaw m) = 0 := by
    simp (disch := omega) only [initializePageRaw, int16FromEnd_set_self,
      int16FromEnd_set_of_ne, wrap16_of_range]
  have space : freespace (initializePageRaw m) = 0 := by
    simp (disch := omega) only [initializePageRaw, int16FromEnd_set_self,
      int16FromEnd_set_of_ne, wrap16_of_range]
  have head : freelist (initializePageRaw m) = invalidSlot := by
    simp only [initializePageRaw, int16FromEnd_set_self, wrap16_invalidSlot]
  have start := slotListStart_eq (initializePageRaw m)
  have dead : ∀ i, ¬ Live (initializePageRaw m) i := by
    intro i live
    have low := live.1
    have high := live.2.1
    omega
  refine { numslots_nonneg := by omega, freespace_nonneg := by omega,
           freespace_le := by omega, sized := ?_, positive := ?_, inside := ?_,
           apart := ?_, list := ⟨[], head, List.nodup_nil, ?_⟩ }
  · exact fun i live => absurd live (dead i)
  · exact fun i live => absurd live (dead i)
  · exact fun i live => absurd live (dead i)
  · exact fun i _ live => absurd live (dead i)
  · intro i
    refine ⟨(fun h => nomatch h), ?_⟩
    intro h
    have low := h.1.1
    have high := h.1.2.1
    omega

section Free
variable {p : Bytes} {n : Int}

theorem trimFreespace_cell (p : Bytes) (n recSize : Int) (ne : k ≠ 1) :
    int16FromEnd (trimFreespace p n recSize) k = int16FromEnd p k := by
  rw [trimFreespace]
  split
  · exact int16FromEnd_set_of_ne p _ ne
  · rfl

theorem trimFreespace_byte (p : Bytes) (n recSize : Int) (below : a < usableSizeOfPage - 2) :
    trimFreespace p n recSize a = p a := by
  rw [trimFreespace]
  split
  · exact setInt16FromEnd_of_below p _ below
  · rfl

/-- No empty record is behind the start of the record in slot `n`, if the heap ends with it. -/
def Clear (p : Bytes) (n : Int) : Prop :=
  freespace p = slot p n + extent p n →
    ∀ i, Live p i → extent p i = 0 → i ≠ n → slot p i ≤ slot p n

theorem trimFreespace_freespace (h : Arranged p) (live : Live p n) (clear : Clear p n) :
    let space := freespace (trimFreespace p n (extent p n))
    0 ≤ space ∧ space ≤ freespace p ∧
      ∀ i, Live p i → i ≠ n → slot p i + extent p i ≤ space := by
  intro space
  have start := slotListStart_eq p
  have low := h.freespace_nonneg
  have high := h.freespace_le
  have slots := h.numslots_nonneg
  have size := size_nonneg (h.sized n live)
  have nonneg := h.nonneg n live
  by_cases last : freespace p = slot p n + extent p n
  · have trimmed : space = freespace p - extent p n := by
      simp only [space, trimFreespace, if_pos last, int16FromEnd_set_self]
      exact wrap16_of_range (by omega) (by omega)
    refine ⟨by omega, by omega, ?_⟩
    intro i live' ne
    have fits := h.inside i live'
    have size' := size_nonneg (h.sized i live')
    have apart := h.apart i n live' live ne
    have behind := clear last i live'
    omega
  · have kept : space = freespace p := by simp only [space, trimFreespace, if_neg last]
    rw [kept]
    exact ⟨low, by omega, fun i live' _ => h.inside i live'⟩

/-- What `vacateSlot` leaves of the directory of `p` when it vacates slot `n`. -/
structure Vacated (p p' : Bytes) (n : Int) : Prop where
  freespace : freespace p' = freespace p
  numslots_nonneg : 0 ≤ numslots p'
  numslots_le : numslots p' ≤ numslots p
  live : ∀ i, Live p' i ↔ Live p i ∧ i ≠ n
  slot : ∀ i, Live p' i → slot p' i = slot p i
  length : ∀ i, Live p' i → slotLength p' i = slotLength p i
  byte : ∀ a, a < slotListStart p → p' a = p a
  list : ∃ l, FreeList p' invalidSlot l

section
variable (bound : numslots p < 32768) (live : Live p n) (list : ∃ l, FreeList p invalidSlot l)
include bound live list

theorem vacateSlot_last (last : n = numslots p - 1) : Vacated p (vacateSlot p n) n := by
  rw [vacateSlot, if_pos last]
  have nonneg := live.1
  generalize eq : setNumslots p (numslots p - 1) = p'
  have slots : numslots p' = numslots p - 1 := by
    rw [← eq]
    exact (int16FromEnd_set_self p _ _).trans (wrap16_of_range (by omega) (by omega))
  have cell : ∀ k, k ≠ 2 → int16FromEnd p' k = int16FromEnd p k := by
    intro k ne
    rw [← eq]
    exact int16FromEnd_set_of_ne p _ ne
  have offset : ∀ i, 0 ≤ i → slot p' i = slot p i := fun i low =>
    cell (2 * i + 4) (by omega)
  refine ⟨cell 1 (by omega), by omega, by omega, ?_, fun i live' => offset i live'.1, ?_, ?_, ?_⟩
  · intro i
    rw [Live, Live, slots]
    constructor
    · intro h
      exact ⟨⟨h.1, by omega, offset i h.1 ▸ h.2.2⟩, by omega⟩
    · intro h
      exact ⟨h.1.1, by omega, (offset i h.1.1).symm ▸ h.1.2.2⟩
  · intro i live'
    have low := live'.1
    exact cell _ (by omega)
  · intro a below
    rw [slotListStart_eq] at below
    rw [← eq]
    exact setInt16FromEnd_of_below p _ (by simp only [usableSizeOfPage]; omega)
  · obtain ⟨l, list⟩ := list
    refine ⟨l, list.threaded.congr (fun c _ => cell (2 * c + 5) (by omega)), list.nodup, ?_⟩
    intro i
    rw [list.mem i, Vacant, Vacant, slots]
    constructor
    · intro h
      have ne : i ≠ n := fun eq => live.2.2 (eq ▸ h.1.2.2)
      exact ⟨⟨h.1.1, by omega, (offset i h.1.1).trans h.1.2.2⟩, h.2⟩
    · intro h
      exact ⟨⟨h.1.1, by omega, (offset i h.1.1).symm.trans h.1.2.2⟩, h.2⟩

theorem vacateSlot_inner (inner : n ≠ numslots p - 1) : Vacated p (vacateSlot p n) n := by
  rw [vacateSlot, if_neg inner]
  have nonneg := live.1
  have high := live.2.1
  generalize eq : setFreelist (setSlotLength (setSlot p n invalidSlot) n (freelist p)) n = p'
  have cell : ∀ k, k ≠ 3 → k ≠ 2 * n + 4 → k ≠ 2 * n + 5 →
      int16FromEnd p' k = int16FromEnd p k := by
    intro k head offset length
    simp (disch := omega) only [← eq, int16FromEnd_set_of_ne]
  have head : slotLength p' invalidSlot = n := by
    rw [← eq]
    exact (int16FromEnd_set_self _ _ _).trans (wrap16_of_range (by omega) (by omega))
  have offset : slot p' n = invalidSlot := by
    simp (disch := omega) only [← eq, int16FromEnd_set_of_ne, int16FromEnd_set_self,
      wrap16_invalidSlot]
  have link : slotLength p' n = slotLength p invalidSlot := by
    simp (disch := omega) only [← eq, int16FromEnd_set_of_ne, int16FromEnd_set_self,
      wrap16_int16FromEnd]
    rfl
  have slots : numslots p' = numslots p := cell 2 (by omega) (by omega) (by omega)
  have others : ∀ i, i ≠ n → slot p' i = slot p i := fun i ne =>
    cell _ (by omega) (by omega) (by omega)
  have lives : ∀ i, Live p' i ↔ Live p i ∧ i ≠ n := by
    intro i
    by_cases same : i = n
    · subst same
      simp only [Live, offset, ne_eq, not_true, and_false]
    · simp only [Live, slots, others i same, ne_eq, same, not_false_iff, and_true]
  refine ⟨cell 1 (by omega) (by omega) (by omega), by omega, by omega, lives, ?_, ?_, ?_, ?_⟩
  · exact fun i live' => others i ((lives i).mp live').2
  · intro i live'
    have ne := ((lives i).mp live').2
    have low := live'.1
    exact cell _ (by omega) (by omega) (by omega)
  · intro a below
    rw [slotListStart_eq] at below
    rw [← eq]
    simp only [setFreelist, setSlotLength, setSlot]
    rw [setInt16FromEnd_of_below, setInt16FromEnd_of_below, setInt16FromEnd_of_below] <;>
      simp only [usableSizeOfPage] <;> omega
  · obtain ⟨l, list⟩ := list
    have fresh : n ∉ l := fun h => live.2.2 ((list.mem n).mp h).1.2.2
    refine ⟨n :: l, ?_, List.nodup_cons.mpr ⟨fresh, list.nodup⟩, ?_⟩
    · refine list.threaded.push (ne_invalidSlot nonneg) head link ?_
      intro c hc
      have low := ((list.mem c).mp hc).1.1
      have ne : c ≠ n := fun eq => fresh (eq ▸ hc)
      exact cell _ (by omega) (by omega) (by omega)
    · intro i
      rw [List.mem_cons, list.mem i]
      by_cases same : i = n
      · subst same
        simp only [true_or, true_iff, Vacant, slots, offset, and_true]
        exact ⟨⟨nonneg, high⟩, ne_invalidSlot nonneg⟩
      · simp only [Vacant, slots, others i same, same, false_or]

end

theorem free_sound (h : Sound p) (live : Live p n) (clear : Clear p n) :
    ∃ p', free p n = some p' ∧ Sound p' ∧
      ∀ i, record p' i = if i = n then none else record p i := by
  have size := h.sized n live
  have cap := h.numslots_le
  have start := slotListStart_eq p
  obtain ⟨low, high, fits⟩ := trimFreespace_freespace h.toArranged live clear
  rw [free, size, Option.bind_some]
  dsimp only
  generalize eq : trimFreespace p n (extent p n) = q at low high fits
  have cell : ∀ k, k ≠ 1 → int16FromEnd q k = int16FromEnd p k := by
    intro k ne
    rw [← eq]
    exact trimFreespace_cell p n _ ne
  have slots : numslots q = numslots p := cell 2 (by omega)
  have offsets : ∀ i, slot q i = slot p i := fun i => cell (2 * i + 4) (by omega)
  have lives : ∀ i, Live q i ↔ Live p i := by
    intro i
    simp only [Live, slots, offsets]
  have list : ∃ l, FreeList q invalidSlot l := by
    obtain ⟨l, list⟩ := h.list
    refine ⟨l, list.threaded.congr ?_, list.nodup, ?_⟩
    · intro c hc
      have range := (list.tail hc).range h.numslots_nonneg
      exact cell (2 * c + 5) (by omega)
    · intro i
      simp only [list.mem i, Vacant, slots, offsets]
  have vacated : Vacated q (vacateSlot q n) n := by
    by_cases last : n = numslots q - 1
    · exact vacateSlot_last (by omega) ((lives n).mpr live) list last
    · exact vacateSlot_inner (by omega) ((lives n).mpr live) list last
  generalize vacateSlot q n = p' at vacated
  have free : ¬ Live p' n := fun live' => ((vacated.live n).mp live').2 rfl
  have type : getType p' n = invalidSlot := by
    rw [getType]
    split
    · rfl
    · split
      · rfl
      · next inside used => exact absurd ⟨live.1, by omega, used⟩ free
  have kept : ∀ i, Live p' i → Live p i ∧ i ≠ n ∧ slot p' i = slot p i ∧
      slotLength p' i = slotLength p i := by
    intro i live'
    have old := (vacated.live i).mp live'
    have nonneg := live'.1
    refine ⟨(lives i).mp old.1, old.2, (vacated.slot i live').trans (offsets i), ?_⟩
    exact (vacated.length i live').trans (cell (2 * i + 5) (by omega))
  refine ⟨p', ?_, ⟨?_, vacated.list⟩, ?_⟩
  · have inside : n < numslots q := by rw [slots]; exact live.2.1
    rw [if_pos inside, if_pos type]
  · have start' := slotListStart_eq p'
    have below := h.freespace_le
    refine h.restrict vacated.numslots_nonneg ?_ ?_ ?_ ?_
    · rw [vacated.freespace]
      exact low
    · rw [vacated.freespace, start']
      have le := vacated.numslots_le
      omega
    · intro i live'
      have old := kept i live'
      exact ⟨old.1, old.2.2.1, by rw [old.2.2.2]⟩
    · intro i live'
      rw [vacated.freespace]
      exact fits i (kept i live').1 (kept i live').2.1
  · intro i
    by_cases same : i = n
    · rw [if_pos same, same, record_eq_none free]
    · rw [if_neg same]
      have live' : Live p' i ↔ Live p i := by
        rw [vacated.live, lives]
        exact ⟨fun h => h.1, fun h => ⟨h, same⟩⟩
      refine record_congr live' (fun old => (kept i (live'.mpr old)).2.2.2) ?_
      intro old j _ high
      have inside := h.inside i old
      have below := h.freespace_le
      have nonneg := h.numslots_nonneg
      rw [(kept i (live'.mpr old)).2.2.1,
        vacated.byte _ (by rw [slotListStart_eq, slots]; omega), ← eq]
      exact trimFreespace_byte p n _ (by simp only [usableSizeOfPage]; omega)

theorem free_spec (h : Valid p) (live : Live p n) :
    ∃ p', free p n = some p' ∧ Valid p' ∧
      ∀ i, record p' i = if i = n then none else record p i := by
  have clear : Clear p n := by
    intro _ i live' empty
    have positive := h.positive i live'
    omega
  obtain ⟨p', run, sound, records⟩ := free_sound h.sound live clear
  refine ⟨p', run, sound.valid fun i live' => ?_, records⟩
  have same : record p' i = record p i := by
    rw [records i]
    refine if_neg fun eq => ?_
    have none := records i
    rw [if_pos eq, record, if_pos live'] at none
    cases none
  obtain ⟨was, eq⟩ := extent_of_record_eq same live'
  rw [eq]
  exact h.positive i was

end Free

theorem setType_eq (h : Layout p) (live : Live p n)
    (allowed : type = normalSlot ∨ recordTypeToSize type = some (extent p n)) :
    ∃ newType, recordTypeToSize newType = some (extent p n) ∧
      setType p n type = some (setSlotLength p n newType) := by
  have size := h.sized n live
  have old : slotLength p n ≠ invalidSlot := by
    intro eq
    rw [eq] at size
    exact nomatch size
  rw [setType, if_pos ⟨live.2.1, old⟩, size, Option.bind_some]
  by_cases normal : type = normalSlot
  · have positive := h.positive n live
    refine ⟨extent p n, ?_, if_pos normal⟩
    exact recordTypeToSize_eq_some_iff.mpr (.inl ⟨by omega, rfl⟩)
  · have special := allowed.resolve_left normal
    exact ⟨type, special, by rw [if_neg normal, if_pos special]⟩

theorem setType_valid (h : Valid p) (live : Live p n)
    (allowed : type = normalSlot ∨ recordTypeToSize type = some (extent p n)) :
    ∃ p', setType p n type = some p' ∧ Valid p' := by
  obtain ⟨newType, size, eq⟩ := setType_eq h.toLayout live allowed
  refine ⟨_, eq, ?_⟩
  have cell : ∀ k, k ≠ 2 * n + 5 →
      int16FromEnd (setSlotLength p n newType) k = int16FromEnd p k :=
    fun k ne => int16FromEnd_set_of_ne p _ ne
  have stored : slotLength (setSlotLength p n newType) n = newType := by
    have start := slotListStart_eq p
    have slots := h.numslots_nonneg
    have below := h.freespace_le
    have inside := h.inside n live
    have range := type_range size (by omega)
    exact (int16FromEnd_set_self p _ _).trans (wrap16_of_range range.1 range.2)
  have nonneg := live.1
  generalize setSlotLength p n newType = p' at cell stored
  have slots : numslots p' = numslots p := cell 2 (by omega)
  have space : freespace p' = freespace p := cell 1 (by omega)
  have offsets : ∀ i, slot p' i = slot p i := fun i => cell (2 * i + 4) (by omega)
  have lives : ∀ i, Live p' i ↔ Live p i := by
    intro i
    rw [Live, Live, slots, offsets]
  have sizes : ∀ i, recordTypeToSize (slotLength p' i) = recordTypeToSize (slotLength p i) := by
    intro i
    by_cases same : i = n
    · rw [same, stored, size, h.sized n live]
    · rw [slotLength, cell (2 * i + 5) (by omega)]
  have arranged : Arranged p' := by
    refine h.arranged.restrict ?_ ?_ ?_ (fun i live' => ⟨(lives i).mp live', offsets i, sizes i⟩) ?_
    · rw [slots]
      exact h.numslots_nonneg
    · rw [space]
      exact h.freespace_nonneg
    · rw [space, slotListStart_eq, slots, ← slotListStart_eq]
      exact h.freespace_le
    · intro i live'
      rw [space]
      exact (h.inside i ((lives i).mp live')).2
  refine ⟨arranged.layout fun i live' => ?_, ?_⟩
  · rw [extent, sizes i]
    exact h.positive i ((lives i).mp live')
  · obtain ⟨l, list⟩ := h.list
    refine ⟨l, list.threaded.congr ?_, list.nodup, ?_⟩
    · intro c hc
      have ne := (list.tail hc).ne_live live
      exact cell (2 * c + 5) (by omega)
    · intro i
      rw [list.mem i, Vacant, Vacant, slots, offsets]

end Stasis.Slotted
