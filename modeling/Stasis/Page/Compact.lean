import Stasis.Library.Intervals
import Stasis.Page.Layout

/-!
Compaction of a slotted page.

The loop goes through the slots in order. After `n` slots the buffer holds the
records of the slots below `n` without gaps, and the free slots below `n` are
linked in increasing order. Cutting the links behind the last free slot below
any `m` gives the free list of a directory of `m` slots; this is how compaction
drops the free slots at the end of the directory.
-/
namespace Stasis.Slotted
open Memory List Option

/-- The bytes that the records in the first `n` slots take. -/
def usedBelow (p : Bytes) (n : Nat) : Int :=
  ∑ i ∈ Finset.range n, if slot p i = invalidSlot then 0 else extent p i

/-- The free slots among the first `n`. -/
def freeBelow (p : Bytes) : Nat → List Int
  | 0 => []
  | n + 1 => if slot p n = invalidSlot then freeBelow p n ++ [(n : Int)] else freeBelow p n

/-- The last free slot among the first `n`, or -1. -/
def lastFreeBelow (p : Bytes) (n : Nat) : Int :=
  (invalidSlot :: freeBelow p n).getLast (cons_ne_nil _ _)

section Below
variable {n : Nat}

theorem usedBelow_succ_free (free : slot p n = invalidSlot) :
    usedBelow p (n + 1) = usedBelow p n := by
  rw [usedBelow, Finset.sum_range_succ, if_pos free, Int.add_zero, usedBelow]

theorem usedBelow_succ_used (used : slot p n ≠ invalidSlot) :
    usedBelow p (n + 1) = usedBelow p n + extent p n := by
  rw [usedBelow, Finset.sum_range_succ, if_neg used, usedBelow]

theorem live_of_lt (le : (n : Int) ≤ numslots p) (lt : i < n) (used : slot p i ≠ invalidSlot) :
    Live p i :=
  ⟨by omega, by omega, used⟩

theorem used_nonneg (h : Arranged p) (le : (n : Int) ≤ numslots p) (mem : i ∈ Finset.range n) :
    0 ≤ if slot p i = invalidSlot then 0 else extent p i := by
  split
  · exact le_rfl
  · next free => exact size_nonneg (h.sized i (live_of_lt le (Finset.mem_range.mp mem) free))

section
variable (h : Arranged p) (le : (n : Int) ≤ numslots p)
include h le

theorem usedBelow_mono (lt : m ≤ n) : usedBelow p m ≤ usedBelow p n :=
  Finset.sum_le_sum_of_subset_of_nonneg (Finset.range_subset_range.mpr lt) fun _ mem _ =>
    used_nonneg h le mem

theorem usedBelow_nonneg : 0 ≤ usedBelow p n := Finset.sum_nonneg fun _ => used_nonneg h le

theorem usedBelow_add_extent_le {i : Nat} (lt : i < n) (used : slot p i ≠ invalidSlot) :
    usedBelow p i + extent p i ≤ usedBelow p n := by
  rw [← usedBelow_succ_used used]
  exact usedBelow_mono h le lt

theorem usedBelow_le_freespace : usedBelow p n ≤ freespace p := by
  -- an empty record adds nothing, wherever it is
  have filtered : usedBelow p n = ∑ i ∈ (Finset.range n).filter
      (fun i : Nat => slot p i ≠ invalidSlot ∧ 0 < extent p i), extent p i := by
    rw [usedBelow, Finset.sum_filter]
    apply Finset.sum_congr rfl
    intro i mem
    have nonneg := used_nonneg h le mem
    by_cases free : slot p i = invalidSlot
    · rw [if_pos free, if_neg fun used => used.1 free]
    · rw [if_neg free] at nonneg ⊢
      split <;> omega
  have live : ∀ i ∈ (Finset.range n).filter
      (fun i : Nat => slot p i ≠ invalidSlot ∧ 0 < extent p i), Live p i ∧ 0 < extent p i := by
    intro i hi
    rw [Finset.mem_filter, Finset.mem_range] at hi
    exact ⟨live_of_lt le hi.1 hi.2.1, hi.2.2⟩
  rw [filtered]
  apply Intervals.sum_size_le (fun i : Nat => slot p i) _ h.freespace_nonneg
  · exact fun i hi => le_of_lt (live i hi).2
  · exact fun i hi => ⟨h.nonneg i (live i hi).1 (live i hi).2, h.inside i (live i hi).1⟩
  · exact fun i hi j hj ne => h.apart i j (live i hi).1 (live j hj).1 (by omega) (live i hi).2
      (live j hj).2

theorem usedBelow_add_lt_slotListStart (lt : i < n) (used : slot p i ≠ invalidSlot)
    (high : j < extent p i) : usedBelow p i + j < slotListStart p :=
  calc usedBelow p i + j
      < usedBelow p i + extent p i := Int.add_lt_add_left high _
    _ ≤ usedBelow p n := usedBelow_add_extent_le h le lt used
    _ ≤ freespace p := usedBelow_le_freespace h le
    _ ≤ slotListStart p := h.freespace_le

end

theorem freeBelow_eq (p : Bytes) (n : Nat) :
    freeBelow p n = ((range n).map Nat.cast).filter (slot p · = invalidSlot) := by
  induction n with
  | zero => rfl
  | succ n ih =>
    rw [freeBelow, ih, range_succ, map_append, filter_append]
    split <;> simp [*]

theorem mem_freeBelow : c ∈ freeBelow p n ↔ 0 ≤ c ∧ c < n ∧ slot p c = invalidSlot := by
  simp only [freeBelow_eq, mem_filter, List.mem_map, mem_range, decide_eq_true_eq]
  constructor
  · rintro ⟨⟨i, lt, rfl⟩, free⟩
    exact ⟨by omega, by omega, free⟩
  · rintro ⟨low, high, free⟩
    exact ⟨⟨c.toNat, by omega, Int.toNat_of_nonneg low⟩, free⟩

theorem freeBelow_increasing (p : Bytes) (n : Nat) : (freeBelow p n).Pairwise (· < ·) := by
  rw [freeBelow_eq]
  exact (pairwise_lt_range.map Nat.cast fun _ _ => Int.ofNat_lt.mpr).filter _

theorem cells_increasing (p : Bytes) (n : Nat) : (invalidSlot :: freeBelow p n).Pairwise (· < ·) := by
  refine pairwise_cons.mpr ⟨fun c mem => ?_, freeBelow_increasing p n⟩
  exact lt_of_lt_of_le (by decide) (mem_freeBelow.mp mem).1

theorem freeBelow_succ_free (free : slot p n = invalidSlot) :
    freeBelow p (n + 1) = freeBelow p n ++ [(n : Int)] :=
  if_pos free

theorem freeBelow_succ_used (used : slot p n ≠ invalidSlot) :
    freeBelow p (n + 1) = freeBelow p n :=
  if_neg used

theorem lastFreeBelow_succ_free (free : slot p n = invalidSlot) :
    lastFreeBelow p (n + 1) = n := by
  simp only [lastFreeBelow, freeBelow_succ_free free, ← cons_append,
    getLast_append_singleton]

theorem lastFreeBelow_succ_used (used : slot p n ≠ invalidSlot) :
    lastFreeBelow p (n + 1) = lastFreeBelow p n := by
  simp only [lastFreeBelow, freeBelow_succ_used used]

theorem mem_le_lastFreeBelow (hc : c ∈ invalidSlot :: freeBelow p n) : c ≤ lastFreeBelow p n :=
  ((cells_increasing p n).imp le_of_lt).rel_getLast hc

theorem lastFreeBelow_mem (p : Bytes) (n : Nat) :
    lastFreeBelow p n ∈ invalidSlot :: freeBelow p n :=
  getLast_mem _

theorem lastFreeBelow_mono (le : m ≤ n) : lastFreeBelow p m ≤ lastFreeBelow p n := by
  apply mem_le_lastFreeBelow
  cases mem_cons.mp (lastFreeBelow_mem p m) with
  | inl eq => exact mem_cons.mpr (.inl eq)
  | inr mem =>
    rw [mem_freeBelow] at mem
    exact .tail _ (mem_freeBelow.mpr ⟨mem.1, by omega, mem.2.2⟩)

theorem range_of_mem (mem : c ∈ invalidSlot :: freeBelow p n) : -1 ≤ c ∧ c < n := by
  cases mem_cons.mp mem with
  | inl eq => rw [eq]; simp only [invalidSlot]; omega
  | inr mem =>
    have := mem_freeBelow.mp mem
    omega

theorem lastFreeBelow_range (p : Bytes) (n : Nat) :
    -1 ≤ lastFreeBelow p n ∧ lastFreeBelow p n < n :=
  range_of_mem (lastFreeBelow_mem p n)

theorem ne_lastFreeBelow {i : Nat} (used : slot p i ≠ invalidSlot) :
    (i : Int) ≠ lastFreeBelow p n := by
  intro eq
  cases mem_cons.mp (lastFreeBelow_mem p n) with
  | inl none => exact ne_invalidSlot (by omega) (eq.trans none)
  | inr mem => exact used (eq ▸ (mem_freeBelow.mp mem).2.2)

end Below

theorem int16FromEnd_copy (dst src : Bytes) (below : d + size ≤ usableSizeOfPage - 2 * k) :
    int16FromEnd (copy dst d src s size) k = int16FromEnd dst k := by
  rw [int16FromEnd, int16FromEnd]
  apply load16_congr
  · exact copy_of_outside dst src (by omega)
  · exact copy_of_outside dst src (by omega)

/-- The state of the loop after `n` slots. -/
structure Compacting (p : Bytes) (n : Nat) (c : Compaction) : Prop where
  freespace : freespace c.buffer = usedBelow p n
  free : ∀ i : Nat, i < n → slot p i = invalidSlot → slot c.buffer i = invalidSlot
  used : ∀ i : Nat, i < n → slot p i ≠ invalidSlot →
    slot c.buffer i = usedBelow p i ∧ slotLength c.buffer i = slotLength p i
  bytes : ∀ i : Nat, i < n → slot p i ≠ invalidSlot → ∀ j, 0 ≤ j → j < extent p i →
    c.buffer (usedBelow p i + j) = p (slot p i + j)
  lastFree : c.lastFreeSlot = lastFreeBelow p n
  lastUsed : ∃ m : Nat, m ≤ n ∧ c.lastUsedSlot + 1 = m ∧
    (∀ i : Nat, m ≤ i → i < n → slot p i = invalidSlot) ∧
    (∀ i : Nat, m = i + 1 → slot p i ≠ invalidSlot) ∧
    c.lastFreeSlotBeforeUsedSlot = lastFreeBelow p m
  linked : ∀ m, m ≤ n → Threaded
    (slotLength (setSlotLength c.buffer (lastFreeBelow p m) invalidSlot))
    invalidSlot invalidSlot (freeBelow p m)

section Loop
variable {n : Nat}

theorem linked_congr (same : ∀ k ∈ invalidSlot :: freeBelow p m, k ≠ lastFreeBelow p m →
      slotLength b' k = slotLength b k)
    (h : Threaded (slotLength (setSlotLength b (lastFreeBelow p m) invalidSlot))
      invalidSlot invalidSlot (freeBelow p m)) :
    Threaded (slotLength (setSlotLength b' (lastFreeBelow p m) invalidSlot))
      invalidSlot invalidSlot (freeBelow p m) := by
  refine h.congr ?_
  intro k hk
  by_cases last : k = lastFreeBelow p m
  · rw [last]
    simp only [int16FromEnd_set_self]
  · have ne : 2 * k + 5 ≠ 2 * lastFreeBelow p m + 5 := by omega
    simp only [int16FromEnd_set_of_ne _ _ ne]
    exact same k hk last

section
variable (h : Arranged p) (le : ((n + 1 : Nat) : Int) ≤ numslots p) (inv : Compacting p n c)
include h le inv

theorem compactSlot_free (free : slot p n = invalidSlot) :
    ∃ c', compactSlot p c n = some c' ∧ Compacting p (n + 1) c' := by
  have cap := h.numslots_le
  have start := slotListStart_eq p
  have space := h.freespace_le
  have range := lastFreeBelow_range p n
  rw [compactSlot, if_pos free, inv.lastFree]
  have head : (if lastFreeBelow p n = invalidSlot then setFreelist c.buffer n
      else setSlotLength c.buffer (lastFreeBelow p n) n) =
      setSlotLength c.buffer (lastFreeBelow p n) n := by
    split
    · next eq => rw [eq]; rfl
    · rfl
  dsimp only
  rw [head]
  refine ⟨_, rfl, ?_⟩
  have cell : ∀ k, k ≠ 2 * lastFreeBelow p n + 5 → k ≠ 2 * n + 4 →
      int16FromEnd (setSlot (setSlotLength c.buffer (lastFreeBelow p n) n) n invalidSlot) k =
        int16FromEnd c.buffer k := by
    intro k length offset
    simp only [int16FromEnd_set_of_ne _ _ length, int16FromEnd_set_of_ne _ _ offset]
  have link : slotLength
      (setSlot (setSlotLength c.buffer (lastFreeBelow p n) n) n invalidSlot)
      (lastFreeBelow p n) = n := by
    simp (disch := omega) only [int16FromEnd_set_of_ne, int16FromEnd_set_self,
      wrap16_of_range]
  have offset : slot (setSlot (setSlotLength c.buffer (lastFreeBelow p n) n) n invalidSlot) n =
      invalidSlot := by
    simp only [int16FromEnd_set_self, wrap16_invalidSlot]
  have low : ∀ a, a < slotListStart p →
      setSlot (setSlotLength c.buffer (lastFreeBelow p n) n) n invalidSlot a = c.buffer a := by
    intro a below
    simp only [setSlot, setSlotLength]
    rw [setInt16FromEnd_of_below, setInt16FromEnd_of_below] <;>
      simp only [usableSizeOfPage] <;> omega
  generalize setSlot (setSlotLength c.buffer (lastFreeBelow p n) n) n invalidSlot = b
    at cell link offset low
  refine ⟨?_, ?_, ?_, ?_, ?_, ?_, ?_⟩
  · rw [usedBelow_succ_free free, ← inv.freespace]
    exact cell 1 (by omega) (by omega)
  · intro i lt freeI
    by_cases eq : i = n
    · rw [eq]
      exact offset
    · exact (cell (2 * i + 4) (by omega) (by omega)).trans (inv.free i (by omega) freeI)
  · intro i lt usedI
    have ne : i ≠ n := fun eq => usedI (eq ▸ free)
    have notLast := ne_lastFreeBelow (n := n) usedI
    have old := inv.used i (by omega) usedI
    exact ⟨(cell (2 * i + 4) (by omega) (by omega)).trans old.1,
      (cell (2 * i + 5) (by omega) (by omega)).trans old.2⟩
  · intro i lt usedI j nonneg high
    have ne : i ≠ n := fun eq => usedI (eq ▸ free)
    refine (low _ (usedBelow_add_lt_slotListStart h le lt usedI high)).trans ?_
    exact inv.bytes i (by omega) usedI j nonneg high
  · exact (lastFreeBelow_succ_free free).symm
  · obtain ⟨m, le, last, vacant, top, before⟩ := inv.lastUsed
    refine ⟨m, by omega, last, ?_, top, before⟩
    intro i low high
    by_cases eq : i = n
    · rw [eq]
      exact free
    · exact vacant i low (by omega)
  · intro m le
    by_cases eq : m = n + 1
    · subst eq
      rw [lastFreeBelow_succ_free free, freeBelow_succ_free free]
      have cells : (invalidSlot :: freeBelow p n).Nodup := (cells_increasing p n).imp ne_of_lt
      refine (inv.linked n (Nat.le_refl n)).concat (ne_invalidSlot (by omega)) cells ?_ ?_ ?_
      · change slotLength (setSlotLength b n invalidSlot) (lastFreeBelow p n) = n
        simp (disch := omega) only [int16FromEnd_set_of_ne]
        exact link
      · simp only [int16FromEnd_set_self, wrap16_invalidSlot]
      · intro k hk last
        change k ≠ lastFreeBelow p n at last
        have high := mem_le_lastFreeBelow hk
        simp (disch := omega) only [int16FromEnd_set_of_ne]
        exact cell (2 * k + 5) (by omega) (by omega)
    · refine linked_congr ?_ (inv.linked m (by omega))
      intro k hk last
      have high := mem_le_lastFreeBelow hk
      have mono := lastFreeBelow_mono (p := p) (show m ≤ n by omega)
      exact cell (2 * k + 5) (by omega) (by omega)

theorem compactSlot_used (used : slot p n ≠ invalidSlot) :
    ∃ c', compactSlot p c n = some c' ∧ Compacting p (n + 1) c' := by
  have cap := h.numslots_le
  have start := slotListStart_eq p
  have space := h.freespace_le
  have live := live_of_lt le (Nat.lt_succ_self n) used
  have size := size_nonneg (h.sized n live)
  have nonneg := usedBelow_nonneg (n := n) h (by omega)
  have next := usedBelow_succ_used used
  have total := usedBelow_le_freespace h le
  rw [compactSlot, if_neg used]
  dsimp only
  rw [h.sized n live, map_some, inv.freespace]
  have kept : ∀ k, k ≤ 2 * numslots p + 3 →
      int16FromEnd (copy c.buffer (usedBelow p n) p (slot p n) (extent p n)) k =
        int16FromEnd c.buffer k := by
    intro k high
    apply int16FromEnd_copy
    simp only [usableSizeOfPage]
    omega
  have inside : ∀ j, 0 ≤ j → j < extent p n →
      copy c.buffer (usedBelow p n) p (slot p n) (extent p n) (usedBelow p n + j) =
        p (slot p n + j) := by
    intro j low high
    rw [copy_of_inside _ _ (by omega) (by omega)]
    congr 1
    omega
  have before : ∀ a, a < usedBelow p n →
      copy c.buffer (usedBelow p n) p (slot p n) (extent p n) a = c.buffer a :=
    fun a lt => copy_of_outside _ _ (.inl lt)
  generalize copy c.buffer (usedBelow p n) p (slot p n) (extent p n) = d
    at kept inside before
  have space' : freespace d = usedBelow p n := (kept 1 (by omega)).trans inv.freespace
  rw [space']
  refine ⟨_, rfl, ?_⟩
  generalize eq : setSlotLength (setSlot d n (usedBelow p n)) n (slotLength p n) = e
  have spaceE : freespace e = usedBelow p n := by
    rw [← space', ← eq]
    simp (disch := omega) only [int16FromEnd_set_of_ne]
  rw [spaceE]
  have cell : ∀ k : Int, k ≠ 1 → k ≠ 2 * n + 4 → k ≠ 2 * n + 5 → k ≤ 2 * numslots p + 3 →
      int16FromEnd (setFreespace e (usedBelow p n + extent p n)) k =
        int16FromEnd c.buffer k := by
    intro k space offset length high
    simp (disch := omega) only [← eq, int16FromEnd_set_of_ne]
    exact kept k high
  have newSpace : freespace (setFreespace e (usedBelow p n + extent p n)) =
      usedBelow p (n + 1) := by
    rw [next]
    exact (int16FromEnd_set_self _ _ _).trans (wrap16_of_range (by omega) (by omega))
  have offset : slot (setFreespace e (usedBelow p n + extent p n)) n = usedBelow p n := by
    simp (disch := omega) only [← eq, int16FromEnd_set_of_ne, int16FromEnd_set_self,
      wrap16_of_range]
  have length : slotLength (setFreespace e (usedBelow p n + extent p n)) n =
      slotLength p n := by
    simp (disch := omega) only [← eq, int16FromEnd_set_of_ne, int16FromEnd_set_self,
      wrap16_int16FromEnd]
  have low : ∀ a, a < slotListStart p →
      setFreespace e (usedBelow p n + extent p n) a = d a := by
    intro a below
    simp only [← eq, setFreespace, setSlot, setSlotLength]
    rw [setInt16FromEnd_of_below, setInt16FromEnd_of_below, setInt16FromEnd_of_below] <;>
      simp only [usableSizeOfPage] <;> omega
  generalize setFreespace e (usedBelow p n + extent p n) = b
    at cell newSpace offset length low
  refine ⟨newSpace, ?_, ?_, ?_, ?_, ?_, ?_⟩
  · intro i lt freeI
    have ne : i ≠ n := fun eq => used (eq ▸ freeI)
    exact (cell (2 * i + 4) (by omega) (by omega) (by omega) (by omega)).trans
      (inv.free i (by omega) freeI)
  · intro i lt usedI
    by_cases same : i = n
    · rw [same]
      exact ⟨offset, length⟩
    · have old := inv.used i (by omega) usedI
      exact ⟨(cell (2 * i + 4) (by omega) (by omega) (by omega) (by omega)).trans old.1,
        (cell (2 * i + 5) (by omega) (by omega) (by omega) (by omega)).trans old.2⟩
  · intro i lt usedI j low' high
    refine (low _ (usedBelow_add_lt_slotListStart h le lt usedI high)).trans ?_
    by_cases same : i = n
    · rw [same] at high ⊢
      exact inside j low' high
    · have ends := usedBelow_add_extent_le (n := n) h (by omega) (by omega) usedI
      have earlier : usedBelow p i + j < usedBelow p n :=
        lt_of_lt_of_le (Int.add_lt_add_left high _) ends
      rw [before _ earlier]
      exact inv.bytes i (by omega) usedI j low' high
  · rw [lastFreeBelow_succ_used used]
    exact inv.lastFree
  · refine ⟨n + 1, le_rfl, by push_cast; rfl, fun i low high => by omega, ?_, ?_⟩
    · intro i eq
      have same : i = n := by omega
      rw [same]
      exact used
    · rw [lastFreeBelow_succ_used used]
      exact inv.lastFree
  · have old : ∀ m, m ≤ n → Threaded (slotLength (setSlotLength b (lastFreeBelow p m)
        invalidSlot)) invalidSlot invalidSlot (freeBelow p m) := by
      intro m le'
      refine linked_congr ?_ (inv.linked m le')
      intro k hk last
      have range := range_of_mem hk
      exact cell (2 * k + 5) (by omega) (by omega) (by omega) (by omega)
    intro m le'
    by_cases eq : m = n + 1
    · rw [eq, lastFreeBelow_succ_used used, freeBelow_succ_used used]
      exact old n (Nat.le_refl n)
    · exact old m (by omega)

end

theorem compactSlots_spec (h : Arranged p) (inv : Compacting p 0 c)
    (le : (n : Int) ≤ numslots p) :
    ∃ c', compactSlots p c n = some c' ∧ Compacting p n c' := by
  induction n with
  | zero => exact ⟨c, rfl, inv⟩
  | succ n ih =>
    obtain ⟨c', run, inv'⟩ := ih (by omega)
    rw [compactSlots, run, bind_some]
    by_cases free : slot p n = invalidSlot
    · exact compactSlot_free h le inv' free
    · exact compactSlot_used h le inv' free

theorem setInt16FromEnd_trailer (b : Bytes) (v : Int) (low : 1 ≤ k)
    (behind : usableSizeOfPage ≤ a) : setInt16FromEnd b k v a = b a := by
  rw [setInt16FromEnd]
  exact store16_of_outside b v (.inr (by omega))

theorem compactSlot_trailer (h : Arranged p) (le : ((n + 1 : Nat) : Int) ≤ numslots p)
    (inv : Compacting p n c) (run : compactSlot p c n = some c') (behind : usableSizeOfPage ≤ a) :
    c'.buffer a = c.buffer a := by
  have range := lastFreeBelow_range p n
  rw [← inv.lastFree] at range
  rw [compactSlot] at run
  by_cases free : slot p n = invalidSlot
  · rw [if_pos free] at run
    cases run
    refine (setInt16FromEnd_trailer _ _ (show 1 ≤ 2 * (n : Int) + 4 by omega) behind).trans ?_
    split
    · exact setInt16FromEnd_trailer _ _ (by omega) behind
    · exact setInt16FromEnd_trailer _ _ (by omega) behind
  · have live := live_of_lt le (Nat.lt_succ_self n) free
    have total := usedBelow_le_freespace h le
    have start := slotListStart_eq p
    have space := h.freespace_le
    have slots := h.numslots_nonneg
    rw [if_neg free] at run
    dsimp only at run
    rw [h.sized n live, map_some, inv.freespace] at run
    cases run
    refine (setInt16FromEnd_trailer _ _ (Int.le_refl 1) behind).trans ?_
    refine (setInt16FromEnd_trailer _ _ (show 1 ≤ 2 * (n : Int) + 5 by omega) behind).trans ?_
    refine (setInt16FromEnd_trailer _ _ (show 1 ≤ 2 * (n : Int) + 4 by omega) behind).trans ?_
    refine copy_of_outside _ _ (.inr ?_)
    rw [usedBelow_succ_used free] at total
    simp only [usableSizeOfPage] at behind
    omega

theorem compactSlots_trailer (h : Arranged p) (inv : Compacting p 0 c)
    (le : (n : Int) ≤ numslots p) (run : compactSlots p c n = some c')
    (behind : usableSizeOfPage ≤ a) : c'.buffer a = c.buffer a := by
  induction n generalizing c' with
  | zero =>
    cases run
    rfl
  | succ n ih =>
    obtain ⟨mid, first, inv'⟩ := compactSlots_spec (n := n) h inv (by omega)
    rw [compactSlots, first, bind_some] at run
    rw [compactSlot_trailer h le inv' run behind]
    exact ih (by omega) first

theorem compacting_start (p b : Bytes) :
    Compacting p 0 ⟨setFreelist (setFreespace b 0) invalidSlot, invalidSlot, invalidSlot,
      -1⟩ := by
  refine ⟨?_, nofun, nofun, nofun, rfl, ⟨0, Nat.le_refl 0, rfl, nofun, nofun, rfl⟩, ?_⟩
  · simp (disch := omega) only [int16FromEnd_set_of_ne, int16FromEnd_set_self,
      wrap16_of_range, usedBelow, Finset.range_zero, Finset.sum_empty]
  · intro m le
    have eq : m = 0 := by omega
    subst eq
    exact (int16FromEnd_set_self _ _ _).trans wrap16_invalidSlot

end Loop

theorem int16FromEnd_copy_page (p b : Bytes) (low : 1 ≤ k) (high : k ≤ 2042) :
    int16FromEnd (copy p 0 b 0 pageSize) k = int16FromEnd b k := by
  rw [int16FromEnd, int16FromEnd]
  have inside : ∀ a, 0 ≤ a → a < pageSize → copy p 0 b 0 pageSize a = b a := by
    intro a low high
    rw [copy_of_inside p b low (by omega)]
    congr 1
    omega
  apply load16_congr <;> apply inside <;> simp only [usableSizeOfPage, pageSize] <;> omega

/-- What compaction makes of `p`. -/
structure Compacted (p p' : Bytes) : Prop where
  valid : Valid p'
  records : ∀ i, record p' i = record p i
  space : freespace p' = usedBelow p (numslots p).toNat
  slots_le : numslots p' ≤ numslots p
  top : 0 < numslots p' → Live p (numslots p' - 1)

section Final
variable {p p' : Bytes} {m : Nat}

/-- The directory of the compacted page `p'`, with `m` slots left. -/
structure Packed (p p' : Bytes) (m : Nat) : Prop where
  le : (m : Int) ≤ numslots p
  vacant : ∀ i, (m : Int) ≤ i → ¬ Live p i
  slots : numslots p' = m
  space : freespace p' = usedBelow p (numslots p).toNat
  free : ∀ i : Nat, i < m → slot p i = invalidSlot → slot p' i = invalidSlot
  used : ∀ i : Nat, i < m → slot p i ≠ invalidSlot →
    slot p' i = usedBelow p i ∧ slotLength p' i = slotLength p i
  bytes : ∀ i : Nat, i < m → slot p i ≠ invalidSlot → ∀ j, 0 ≤ j → j < extent p i →
    p' (usedBelow p i + j) = p (slot p i + j)
  linked : Threaded (slotLength p') invalidSlot invalidSlot (freeBelow p m)

theorem Packed.offset (packed : Packed p p' m) {i : Nat} (live : Live p i) :
    i < m ∧ slot p' i = usedBelow p i ∧ slotLength p' i = slotLength p i := by
  have high : i < m := by
    by_contra high
    exact packed.vacant i (by omega) live
  exact ⟨high, packed.used i high live.2.2⟩

theorem Packed.live_iff (h : Arranged p) (packed : Packed p p' m) (i : Int) :
    Live p' i ↔ Live p i := by
  have le := packed.le
  constructor
  · intro live
    obtain ⟨k, rfl⟩ := Int.eq_ofNat_of_zero_le live.1
    have high := live.2.1
    rw [packed.slots] at high
    exact ⟨live.1, by omega, fun free => live.2.2 (packed.free k (by omega) free)⟩
  · intro live
    obtain ⟨k, rfl⟩ := Int.eq_ofNat_of_zero_le live.1
    obtain ⟨high, place, _⟩ := packed.offset live
    refine ⟨live.1, by rw [packed.slots]; omega, ne_invalidSlot ?_⟩
    rw [place]
    exact usedBelow_nonneg h (by omega)

section
variable (h : Arranged p) (packed : Packed p p' m)
include h packed

theorem Packed.arranged : Arranged p' := by
  have le := packed.le
  have cap := h.numslots_nonneg
  have bound : ((numslots p).toNat : Int) ≤ numslots p := by omega
  have total := usedBelow_le_freespace h bound
  have extents : ∀ i : Nat, Live p i → extent p' i = extent p i := by
    intro i live
    simp only [extent, (packed.offset live).2.2]
  have ends : ∀ i : Nat, ∀ n : Nat, Live p i → i < n → (n : Int) ≤ numslots p →
      slot p' i + extent p' i ≤ usedBelow p n := by
    intro i n live lt le
    rw [(packed.offset live).2.1, extents i live]
    exact usedBelow_add_extent_le h le lt live.2.2
  have index : ∀ i, Live p' i → ∃ k : Nat, i = k ∧ Live p k := by
    intro i live
    obtain ⟨k, rfl⟩ := Int.eq_ofNat_of_zero_le live.1
    exact ⟨k, rfl, (packed.live_iff h k).mp live⟩
  refine ⟨?_, ?_, ?_, ?_, ?_, ?_, ?_⟩
  · rw [packed.slots]
    omega
  · rw [packed.space]
    exact usedBelow_nonneg h bound
  · have space := h.freespace_le
    rw [slotListStart_eq] at space
    rw [packed.space, slotListStart_eq, packed.slots]
    omega
  · intro i used
    obtain ⟨k, rfl, live⟩ := index i used
    rw [extents k live, (packed.offset live).2.2]
    exact h.sized k live
  · intro i used
    obtain ⟨k, rfl, live⟩ := index i used
    have lt := (packed.offset live).1
    rw [packed.space]
    exact ends k _ live (by omega) bound
  · intro i used _
    obtain ⟨k, rfl, live⟩ := index i used
    have lt := (packed.offset live).1
    rw [(packed.offset live).2.1]
    exact usedBelow_nonneg h (by omega)
  · intro i j used used' ne _ _
    obtain ⟨k, rfl, live⟩ := index i used
    obtain ⟨l, rfl, live'⟩ := index j used'
    have far : k < l ∨ l < k := by omega
    cases far with
    | inl lt =>
      left
      rw [(packed.offset live').2.1]
      exact ends k l live lt (by have := (packed.offset live').1; omega)
    | inr lt =>
      right
      rw [(packed.offset live).2.1]
      exact ends l k live' lt (by have := (packed.offset live).1; omega)

theorem Packed.freeList : FreeList p' invalidSlot (freeBelow p m) := by
  refine ⟨packed.linked, (freeBelow_increasing p m).imp ne_of_lt, ?_⟩
  intro i
  rw [mem_freeBelow, Vacant, packed.slots]
  constructor
  · intro mem
    obtain ⟨k, rfl⟩ := Int.eq_ofNat_of_zero_le mem.1
    exact ⟨⟨mem.1, mem.2.1, packed.free k (by omega) mem.2.2⟩, ne_invalidSlot mem.1⟩
  · intro out
    refine ⟨out.1.1, out.1.2.1, ?_⟩
    by_contra used
    have high := out.1.2.1
    have le := packed.le
    have live := (packed.live_iff h i).mpr ⟨out.1.1, by omega, used⟩
    exact live.2.2 out.1.2.2

theorem Packed.record (i : Int) : Slotted.record p' i = Slotted.record p i := by
  refine record_congr (packed.live_iff h i) ?_ ?_
  · intro live
    obtain ⟨k, rfl⟩ := Int.eq_ofNat_of_zero_le live.1
    exact (packed.offset live).2.2
  · intro live j low high
    obtain ⟨k, rfl⟩ := Int.eq_ofNat_of_zero_le live.1
    have out := packed.offset live
    rw [out.2.1]
    exact packed.bytes _ out.1 live.2.2 j low high

end

theorem packed_of_compacting (h : Arranged p) (inv : Compacting p (numslots p).toNat c) :
    ∃ m, (∀ i : Nat, m = i + 1 → slot p i ≠ invalidSlot) ∧
      Packed p (copy p 0 (setNumslots (setSlotLength c.buffer c.lastFreeSlotBeforeUsedSlot
        invalidSlot) (c.lastUsedSlot + 1)) 0 pageSize) m := by
  have nonneg := h.numslots_nonneg
  have cap := h.numslots_le
  have start := slotListStart_eq p
  have space := h.freespace_le
  have total := usedBelow_le_freespace (n := (numslots p).toNat) h (by omega)
  obtain ⟨m, le, last, vacant, top, before⟩ := inv.lastUsed
  have range := lastFreeBelow_range p m
  have packed_le : (m : Int) ≤ numslots p := by omega
  rw [last, before]
  refine ⟨m, top, ?_⟩
  have cell : ∀ k : Int, 1 ≤ k → k ≤ 2042 → k ≠ 2 → int16FromEnd (copy p 0 (setNumslots
      (setSlotLength c.buffer (lastFreeBelow p m) invalidSlot) m) 0 pageSize) k =
        int16FromEnd (setSlotLength c.buffer (lastFreeBelow p m) invalidSlot) k := by
    intro k low high ne
    rw [int16FromEnd_copy_page p _ low high]
    exact int16FromEnd_set_of_ne _ _ ne
  have count : numslots (copy p 0 (setNumslots
      (setSlotLength c.buffer (lastFreeBelow p m) invalidSlot) m) 0 pageSize) = m := by
    refine (int16FromEnd_copy_page p _ (by omega) (by omega)).trans ?_
    exact (int16FromEnd_set_self _ _ _).trans (wrap16_of_range (by omega) (by omega))
  have byte : ∀ a, 0 ≤ a → a < slotListStart p → copy p 0 (setNumslots
      (setSlotLength c.buffer (lastFreeBelow p m) invalidSlot) m) 0 pageSize a =
        c.buffer a := by
    intro a low high
    rw [copy_of_inside _ _ low (by simp only [pageSize]; omega)]
    simp only [setNumslots, setSlotLength]
    rw [setInt16FromEnd_of_below, setInt16FromEnd_of_below]
    · congr 1
      omega
    · simp only [usableSizeOfPage]
      omega
    · simp only [usableSizeOfPage]
      omega
  generalize copy p 0 (setNumslots (setSlotLength c.buffer (lastFreeBelow p m) invalidSlot)
    m) 0 pageSize = p' at cell count byte
  have offset : ∀ i : Nat, i < m → slot p' i = slot c.buffer i := by
    intro i lt
    refine (cell (2 * i + 4) (by omega) (by omega) (by omega)).trans ?_
    exact int16FromEnd_set_of_ne _ _ (by omega)
  refine ⟨by omega, ?_, count, ?_, ?_, ?_, ?_, ?_⟩
  · intro i low live
    obtain ⟨k, rfl⟩ := Int.eq_ofNat_of_zero_le live.1
    have high := live.2.1
    exact live.2.2 (vacant k (by omega) (by omega))
  · rw [← inv.freespace]
    refine (cell 1 (by omega) (by omega) (by omega)).trans ?_
    exact int16FromEnd_set_of_ne _ _ (by omega)
  · intro i lt free
    rw [offset i lt]
    exact inv.free i (by omega) free
  · intro i lt used
    have out := inv.used i (by omega) used
    have ne := ne_lastFreeBelow (n := m) used
    refine ⟨(offset i lt).trans out.1, ?_⟩
    refine (cell (2 * i + 5) (by omega) (by omega) (by omega)).trans ?_
    exact (int16FromEnd_set_of_ne _ _ (by omega)).trans out.2
  · intro i lt used j low high
    have first := usedBelow_nonneg (n := i) h (by omega)
    have below := usedBelow_add_lt_slotListStart h packed_le lt used high
    rw [byte _ (by omega) below]
    exact inv.bytes i (by omega) used j low high
  · refine (inv.linked m le).congr ?_
    intro k hk
    have range := range_of_mem hk
    exact cell (2 * k + 5) (by omega) (by omega) (by omega)

end Final

/-- What compaction makes of a page that may have empty records. -/
structure Rebuilt (p p' : Bytes) : Prop where
  arranged : Arranged p'
  records : ∀ i, record p' i = record p i
  space : freespace p' = usedBelow p (numslots p).toNat
  slots_le : numslots p' ≤ numslots p
  top : 0 < numslots p' → Live p (numslots p' - 1)
  list : FreeList p' invalidSlot (freeBelow p (numslots p').toNat)
  trailer : ∀ a, usableSizeOfPage ≤ a → p' a = p a

theorem Rebuilt.live_iff (h : Rebuilt p p') (i : Int) : Live p' i ↔ Live p i := by
  rw [← record_isSome_iff, ← record_isSome_iff, h.records]

theorem Rebuilt.sound (h : Rebuilt p p') : Sound p' := ⟨h.arranged, _, h.list⟩

theorem compact_rebuilt (h : Arranged p) (buffer : Bytes) :
    ∃ p', compact buffer p = some p' ∧ Rebuilt p p' := by
  rw [compact]
  dsimp only
  have nonneg := h.numslots_nonneg
  have start := compacting_start p (copy buffer usableSizeOfPage p usableSizeOfPage
    (pageSize - usableSizeOfPage))
  obtain ⟨c, run, inv⟩ := compactSlots_spec (n := (numslots p).toNat) h start (by omega)
  obtain ⟨m, top, packed⟩ := packed_of_compacting h inv
  have le := packed.le
  rw [run, map_some]
  refine ⟨_, rfl, packed.arranged h, packed.record h, packed.space, ?_, ?_, ?_, ?_⟩
  · rw [packed.slots]
    exact le
  · rw [packed.slots]
    intro pos
    have used := top (m - 1) (by omega)
    rw [Nat.cast_sub (by omega)] at used
    exact ⟨by omega, by omega, used⟩
  · rw [packed.slots]
    exact packed.freeList h
  · intro a behind
    obtain ⟨k, _, last, _, _, before⟩ := inv.lastUsed
    have range := lastFreeBelow_range p k
    rw [← before] at range
    by_cases out : pageSize ≤ a
    · exact copy_of_outside _ _ (.inr (by omega))
    · have inside : 0 ≤ a := le_trans (by decide) behind
      rw [copy_of_inside _ _ inside (by omega), show 0 + (a - 0) = a by omega]
      refine (setInt16FromEnd_trailer _ _ (by decide) behind).trans ?_
      refine (setInt16FromEnd_trailer _ _ (by omega) behind).trans ?_
      rw [compactSlots_trailer h start (by omega) run behind]
      refine (setInt16FromEnd_trailer _ _ (by decide) behind).trans ?_
      refine (setInt16FromEnd_trailer _ _ (by decide) behind).trans ?_
      rw [copy_of_inside _ _ behind (by omega)]
      congr 1
      omega

theorem Rebuilt.compacted (out : Rebuilt p p') (h : Layout p) : Compacted p p' := by
  refine ⟨out.sound.valid fun i live => ?_, out.records, out.space, out.slots_le, out.top⟩
  obtain ⟨live', same⟩ := extent_of_record_eq (out.records i) live
  rw [same]
  exact h.positive i live'

theorem compact_spec (h : Layout p) (buffer : Bytes) :
    ∃ p', compact buffer p = some p' ∧ Compacted p p' := by
  obtain ⟨p', run, out⟩ := compact_rebuilt h.arranged buffer
  exact ⟨p', run, out.compacted h⟩

end Stasis.Slotted
