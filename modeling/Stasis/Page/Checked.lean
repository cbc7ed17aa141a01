import Stasis.Page.Check

/-!
What a page that passes slotted_check is like.

The check marks the bytes of each record in an image of the page and finds them
unmarked before. So the records of a page that passes lie in front of the free
space and apart from each other, and compaction keeps them.
-/
namespace Stasis.Slotted
open Memory Function Option

variable {n : Nat} {p image image' : Bytes} {a : Int}

theorem markRecord_inv (run : markRecord image offset mark n = some image') :
    (offset ≤ a ∧ a < offset + n → image a = 0xFF ∧ image' a = mark) ∧
      (a < offset ∨ offset + n ≤ a → image' a = image a) := by
  induction n generalizing image' with
  | zero =>
    cases run
    exact ⟨by omega, fun _ => rfl⟩
  | succ n ih =>
    obtain ⟨image₁, before, run⟩ := bind_eq_some_iff.mp run
    by_cases unused : image₁ (offset + n) = 0xFF
    · rw [if_pos unused] at run
      cases run
      obtain ⟨inside, outside⟩ := ih before
      by_cases last : a = offset + n
      · subst last
        have same := outside (.inr le_rfl)
        refine ⟨fun _ => ⟨same.symm.trans unused, update_self _ _ _⟩, by omega⟩
      · rw [update_of_ne last]
        exact ⟨fun h => inside (by omega), fun h => outside (by omega)⟩
    · rw [if_neg unused] at run
      cases run

theorem mark_ne (n : Nat) : UInt8.ofNat (n % 0xFF) ≠ 0xFF := by
  intro eq
  have value := congrArg UInt8.toNat eq
  rw [UInt8.toNat_ofNat'] at value
  have : n % 0xFF < 0xFF := Nat.mod_lt _ (by decide)
  have top : (0xFF : UInt8).toNat = 255 := rfl
  omega

/-- Address `a` is in the record that slot `k` points to. -/
def Covers (p : Bytes) (k a : Int) : Prop := slot p k ≤ a ∧ a < slot p k + extent p k

/-- The records in the first `n` slots have been marked in `image`, with `image'` the result. -/
structure Marked (p image image' : Bytes) (n : Nat) : Prop where
  sized : ∀ k : Nat, k < n → slot p k ≠ invalidSlot →
    recordTypeToSize (slotLength p k) = some (extent p k)
  unmarked : ∀ a, image' a = 0xFF → image a = 0xFF
  covered : ∀ k : Nat, k < n → slot p k ≠ invalidSlot → ∀ a, Covers p k a →
    image a = 0xFF ∧ image' a ≠ 0xFF
  apart : ∀ j k : Nat, j < k → k < n → slot p j ≠ invalidSlot → slot p k ≠ invalidSlot →
    ∀ a, Covers p j a → ¬ Covers p k a

theorem Marked.vacant (marked : Marked p image image' n) (vacant : slot p n = invalidSlot) :
    Marked p image image' (n + 1) := by
  have lower : ∀ k : Nat, k < n + 1 → slot p k ≠ invalidSlot → k < n := by
    intro k lt used
    have ne : k ≠ n := fun eq => used (eq ▸ vacant)
    omega
  refine ⟨fun k lt used => marked.sized k (lower k lt used) used, marked.unmarked,
    fun k lt used => marked.covered k (lower k lt used) used, ?_⟩
  intro j k lt le used used'
  exact marked.apart j k lt (lower k le used') used used'

theorem Marked.used (marked : Marked p image image₁ n)
    (known : recordTypeToSize (slotLength p n) = some size)
    (run : markRecord image₁ (slot p n) (UInt8.ofNat (n % 0xFF)) size.toNat = some image') :
    Marked p image image' (n + 1) := by
  have same : extent p n = size := by rw [extent, known, getD_some]
  have sized : recordTypeToSize (slotLength p n) = some (extent p n) := same ▸ known
  have nonneg := size_nonneg sized
  have byte : ∀ a, (Covers p n a → image₁ a = 0xFF ∧ image' a ≠ 0xFF) ∧
      (¬ Covers p n a → image' a = image₁ a) := by
    intro a
    obtain ⟨inside, outside⟩ := markRecord_inv run (a := a)
    rw [Covers]
    constructor
    · intro h
      obtain ⟨before, after⟩ := inside (by omega)
      exact ⟨before, after ▸ mark_ne n⟩
    · intro h
      exact outside (by omega)
  have unmarked : ∀ a, image' a = 0xFF → image₁ a = 0xFF := by
    intro a eq
    by_cases mine : Covers p n a
    · exact absurd eq ((byte a).1 mine).2
    · exact (byte a).2 mine ▸ eq
  refine ⟨?_, fun a eq => marked.unmarked a (unmarked a eq), ?_, ?_⟩
  · intro k lt used
    by_cases last : k = n
    · exact last ▸ sized
    · exact marked.sized k (by omega) used
  · intro k lt used a covers
    by_cases last : k = n
    · subst last
      obtain ⟨before, after⟩ := (byte a).1 covers
      exact ⟨marked.unmarked a before, after⟩
    · obtain ⟨before, after⟩ := marked.covered k (by omega) used a covers
      exact ⟨before, fun eq => after (unmarked a eq)⟩
  · intro j k lt le used used' a covers covers'
    by_cases last : k = n
    · subst last
      exact (marked.covered j lt used a covers).2 ((byte a).1 covers').1
    · exact marked.apart j k lt (by omega) used used' a covers covers'

theorem markRecords_marked (run : markRecords p image n = some image') :
    Marked p image image' n := by
  induction n generalizing image' with
  | zero =>
    cases run
    exact ⟨by omega, fun _ eq => eq, by omega, by omega⟩
  | succ n ih =>
    obtain ⟨image₁, before, run⟩ := bind_eq_some_iff.mp run
    have marked := ih before
    by_cases vacant : slot p n = invalidSlot
    · rw [if_neg (fun h => h vacant)] at run
      cases run
      exact marked.vacant vacant
    · rw [if_pos vacant] at run
      obtain ⟨size, known, run⟩ := bind_eq_some_iff.mp run
      exact marked.used known run

theorem setInt16FromEnd_mark (b : Bytes) (low : usableSizeOfPage - 2 * k ≤ a)
    (high : a < usableSizeOfPage - 2 * k + 2) : setInt16FromEnd b k 0xFCFC a = 0xFC := by
  have which : a = usableSizeOfPage - 2 * k ∨ a = usableSizeOfPage - 2 * k + 1 := by omega
  rw [setInt16FromEnd, store16]
  rcases which with eq | eq
  · rw [eq, update_of_ne (by omega), update_self]
    rfl
  · rw [eq, update_self]
    rfl

theorem markSlots_directory (image : Bytes) (low : 4078 - 4 * n ≤ a) (high : a < 4078) :
    markSlots image n a = 0xFC := by
  induction n with
  | zero => omega
  | succ n ih =>
    have usable : usableSizeOfPage = 4084 := rfl
    rw [markSlots]
    by_cases length : a < 4078 - 4 * n - 2
    · exact setInt16FromEnd_mark _ (by omega) (by omega)
    · have behind : setSlotLength (setSlot (markSlots image n) n 0xFCFC) n 0xFCFC a =
          setSlot (markSlots image n) n 0xFCFC a := by
        rw [setSlotLength, setInt16FromEnd]
        exact store16_of_outside _ _ (.inr (by omega))
      rw [behind]
      by_cases offset : a < 4078 - 4 * n
      · exact setInt16FromEnd_mark _ (by omega) (by omega)
      · rw [setSlot, setInt16FromEnd, store16_of_outside _ _ (.inr (by omega))]
        exact ih (by omega)

theorem markSlots_header (image : Bytes) (behind : 4078 ≤ a) : markSlots image n a = image a := by
  induction n with
  | zero => rfl
  | succ n ih =>
    have usable : usableSizeOfPage = 4084 := rfl
    rw [markSlots, setSlotLength, setSlot, setInt16FromEnd, setInt16FromEnd,
      store16_of_outside _ _ (.inr (by omega)), store16_of_outside _ _ (.inr (by omega))]
    exact ih

theorem checkImage_inv (slots : 0 ≤ numslots p) (unmarked : checkImage p a = 0xFF) :
    0 ≤ a ∧ a < freespace p := by
  have start := slotListStart_eq p
  have usable : usableSizeOfPage = 4084 := rfl
  have header : headerOverhead = 6 := rfl
  have size : pageSize = 4096 := rfl
  rw [checkImage] at unmarked
  by_cases behind : 4078 ≤ a
  · rw [markSlots_header _ behind, fill_of_outside _ _ (.inr (by omega))] at unmarked
    by_cases cells : a < 4084
    · rw [fill_of_inside _ _ (by omega) (by omega)] at unmarked
      cases unmarked
    · rw [fill_of_outside _ _ (.inr (by omega))] at unmarked
      by_cases trailer : a < 4096
      · rw [fill_of_inside _ _ (by omega) (by omega)] at unmarked
        cases unmarked
      · rw [fill_of_outside _ _ (.inr (by omega)), fill_of_outside _ _ (.inr (by omega))] at unmarked
        cases unmarked
  · by_cases directory : 4078 - 4 * numslots p ≤ a
    · rw [markSlots_directory _ (by omega) (by omega)] at unmarked
      cases unmarked
    · rw [markSlots_byte _ (by omega)] at unmarked
      by_cases free : freespace p ≤ a
      · rw [fill_of_inside _ _ free (by omega)] at unmarked
        cases unmarked
      · rw [fill_of_outside _ _ (.inl (by omega)), fill_of_outside _ _ (.inl (by omega)),
          fill_of_outside _ _ (.inl (by omega))] at unmarked
        refine ⟨?_, by omega⟩
        by_contra low
        rw [fill_of_outside _ _ (.inl (by omega))] at unmarked
        cases unmarked

theorem checkHeader_inv (passed : checkHeader p = true) :
    0 ≤ numslots p ∧ 0 ≤ freespace p ∧ freespace p ≤ slotListStart p ∧
      invalidSlot ≤ freelist p ∧ freelist p < numslots p := by
  rw [checkHeader] at passed
  have facts := of_decide_eq_true passed
  exact ⟨facts.2.2.1, facts.2.2.2.2⟩

theorem checkSlots_inv (run : checkSlots p found n = some result) (lt : k < n)
    (used : slot p k ≠ invalidSlot) : slot p k + slotLength p k ≤ freespace p := by
  induction n generalizing result with
  | zero => omega
  | succ n ih =>
    obtain ⟨before, first, last⟩ := bind_eq_some_iff.mp run
    by_cases here : k = n
    · subst here
      rw [checkSlot, if_neg used] at last
      by_contra out
      rw [if_neg out] at last
      cases last
    · exact ih first (by omega)

theorem checkFreelist_inv (passed : checkFreelist p = some true) :
    (freelist p ≠ invalidSlot → slot p (freelist p) = invalidSlot) ∧
      ∃ found, checkSlots p found (numslots p).toNat = some true := by
  rw [checkFreelist] at passed
  by_cases empty : freelist p ≠ invalidSlot
  · rw [if_pos empty] at passed
    by_cases vacant : slot p (freelist p) = invalidSlot
    · rw [if_pos vacant] at passed
      exact ⟨fun _ => vacant, _, passed⟩
    · rw [if_neg vacant] at passed
      cases passed
  · rw [if_neg empty] at passed
    exact ⟨fun some => absurd some empty, _, passed⟩

theorem check_inv (passed : check p = true) :
    checkHeader p = true ∧ checkFreelist p = some true ∧
      ∃ image, markRecords p (checkImage p) (numslots p).toNat = some image := by
  rw [check, Bool.and_eq_true, Bool.and_eq_true] at passed
  exact ⟨passed.1.1, eq_of_beq passed.1.2, isSome_iff_exists.mp passed.2⟩

theorem apart_of_covers (pos : 0 < extent p i) (pos' : 0 < extent p j)
    (disjoint : ∀ a, Covers p i a → ¬ Covers p j a) :
    slot p i + extent p i ≤ slot p j ∨ slot p j + extent p j ≤ slot p i := by
  have first := disjoint (slot p i) ⟨le_rfl, by omega⟩
  have second : ¬ Covers p i (slot p j) :=
    fun covers => disjoint _ covers ⟨le_rfl, by omega⟩
  rw [Covers] at first second
  omega

/-- The records of a page that passes the check are in front of the free space, and apart. -/
theorem arranged_of_check (passed : check p = true) : Arranged p := by
  obtain ⟨header, list, image, run⟩ := check_inv passed
  obtain ⟨_, found, slots⟩ := checkFreelist_inv list
  obtain ⟨nonneg, space, below, _⟩ := checkHeader_inv header
  have marked := markRecords_marked run
  have sized : ∀ i, Live p i → recordTypeToSize (slotLength p i) = some (extent p i) := by
    intro i live
    obtain ⟨k, rfl⟩ := Int.eq_ofNat_of_zero_le live.1
    exact marked.sized k (by have := live.2.1; omega) live.2.2
  have covered : ∀ i, Live p i → ∀ a, Covers p i a → 0 ≤ a ∧ a < freespace p := by
    intro i live a covers
    obtain ⟨k, rfl⟩ := Int.eq_ofNat_of_zero_le live.1
    have mine := marked.covered k (by have := live.2.1; omega) live.2.2 a covers
    exact checkImage_inv nonneg mine.1
  have apart : ∀ i j, Live p i → Live p j → i < j → ∀ a, Covers p i a → ¬ Covers p j a := by
    intro i j live live' lt a
    obtain ⟨k, rfl⟩ := Int.eq_ofNat_of_zero_le live.1
    obtain ⟨l, rfl⟩ := Int.eq_ofNat_of_zero_le live'.1
    exact marked.apart k l (by omega) (by have := live'.2.1; omega) live.2.2 live'.2.2 a
  refine ⟨nonneg, space, below, sized, ?_, ?_, ?_⟩
  · intro i live
    have size := recordTypeToSize_eq_some_iff.mp (sized i live)
    by_cases empty : extent p i = 0
    · obtain ⟨k, rfl⟩ := Int.eq_ofNat_of_zero_le live.1
      have fits := checkSlots_inv slots (k := k) (by have := live.2.1; omega) live.2.2
      simp only [blobSlot, sizeofBlobRecord] at size
      omega
    · have nonneg := size_nonneg (sized i live)
      have last := covered i live (slot p i + extent p i - 1) ⟨by omega, by omega⟩
      omega
  · intro i live pos
    exact (covered i live (slot p i) ⟨le_rfl, by omega⟩).1
  · intro i j live live' ne pos pos'
    refine apart_of_covers pos pos' ?_
    intro a covers covers'
    rcases Int.lt_or_gt_of_ne ne with lt | gt
    · exact apart i j live live' lt a covers covers'
    · exact apart j i live' live gt a covers' covers

theorem Rebuilt.freelist_empty (out : Rebuilt p q) (nonneg : 0 ≤ freelist p)
    (vacant : slot p (freelist p) = invalidSlot) (empty : freelist q = invalidSlot) :
    numslots q ≤ freelist p := by
  have slots := out.arranged.numslots_nonneg
  by_contra kept
  have mem : freelist p ∈ freeBelow p (numslots q).toNat :=
    mem_freeBelow.mpr ⟨nonneg, by rw [Int.toNat_of_nonneg slots]; exact not_le.mp kept, vacant⟩
  have threaded := out.list.threaded
  have cells : ∀ c ∈ freeBelow p (numslots q).toNat, 0 ≤ c := fun c h => (mem_freeBelow.mp h).1
  cases l : freeBelow p (numslots q).toNat with
  | nil =>
    rw [l] at mem
    cases mem
  | cons c rest =>
    rw [l] at threaded cells
    have head : freelist q = c := threaded.1
    have low := cells c List.mem_cons_self
    rw [← head, empty] at low
    exact absurd low (by decide)

theorem Rebuilt.freespaceForSlot_le (passed : check p = true) (out : Rebuilt p q) :
    ∃ free free', freespaceForSlot p invalidSlot = some free ∧
      freespaceForSlot q invalidSlot = some free' ∧ free ≤ free' := by
  have h := arranged_of_check passed
  obtain ⟨header, list, _⟩ := check_inv passed
  obtain ⟨nonneg, _, _, low, high⟩ := checkHeader_inv header
  have used : freespace q ≤ freespace p := by
    rw [out.space]
    exact usedBelow_le_freespace h (by omega)
  have slots := out.slots_le
  have start := slotListStart_eq p
  have start' := slotListStart_eq q
  have overhead : (if freelist q = invalidSlot then overheadPerRecord else 0) ≤
      (if freelist p = invalidSlot then overheadPerRecord else 0) +
        4 * (numslots p - numslots q) := by
    have cell : overheadPerRecord = 4 := rfl
    have none : invalidSlot = -1 := rfl
    by_cases some : freelist p = invalidSlot
    · rw [if_pos some]
      split <;> omega
    · rw [if_neg some]
      split
      · next empty =>
        have lost := out.freelist_empty (by omega) ((checkFreelist_inv list).1 some) empty
        omega
      · omega
  rw [freespaceForSlot, freespaceForSlot, if_pos h.freespace_le, if_pos out.arranged.freespace_le,
    if_pos rfl, if_pos rfl]
  refine ⟨_, _, rfl, rfl, ?_⟩
  generalize (if freelist q = invalidSlot then overheadPerRecord else 0) = added' at overhead ⊢
  generalize (if freelist p = invalidSlot then overheadPerRecord else 0) = added at overhead ⊢
  split <;> split <;> omega

/-- Compaction keeps the records of every page that passes the check, in the same slots, leaves
no space between them and no slot behind the last of them. -/
theorem compact_keeps_records (buffer p : Bytes) (passed : check p = true) :
    ∃ q, compact buffer p = some q ∧ (∀ i, record q i = record p i) ∧
      freespace q = usedBelow p (numslots p).toNat ∧
      (∀ i, Live p i → i < numslots q) ∧ 0 ≤ numslots q ∧
      (0 < numslots q → Live p (numslots q - 1)) ∧
      (∃ l, FreeList q invalidSlot l ∧ l.Pairwise (· < ·)) ∧
      (∀ a, usableSizeOfPage ≤ a → q a = p a) ∧
      ∃ free free', freespaceForSlot p invalidSlot = some free ∧
        freespaceForSlot q invalidSlot = some free' ∧ free ≤ free' := by
  obtain ⟨q, run, out⟩ := compact_rebuilt (arranged_of_check passed) buffer
  refine ⟨q, run, out.records, out.space, ?_, out.arranged.numslots_nonneg, out.top,
    ⟨_, out.list, freeBelow_increasing p _⟩, out.trailer, out.freespaceForSlot_le passed⟩
  intro i live
  exact ((out.live_iff i).mpr live).2.1

/-- The first of two records is freed. Compaction moves the other one to the start of the page. -/
theorem compact_keeps_records_hole :
    ∃ p q, check p = true ∧ (slot p 1, freespace p) = (2, 5) ∧
      compact (fun _ => 0) p = some q ∧ record q 1 = record p 1 ∧ freespace q = 3 := by
  obtain ⟨p, _, passed, cells, used⟩ :
      ∃ p, ((postAlloc (fun _ => 0) (initializePageRaw fun _ => 0) 0 2).bind fun p =>
          (postAlloc (fun _ => 0) p 1 3).bind fun p => free p 0) = some p ∧
        check p = true ∧ (slot p 1, freespace p) = (2, 5) ∧ usedBelow p (numslots p).toNat = 3 := by
    decide +kernel
  obtain ⟨q, run, records, space, _⟩ := compact_keeps_records (fun _ => 0) p passed
  exact ⟨p, q, passed, cells, run, records 1, space.trans used⟩

end Stasis.Slotted
