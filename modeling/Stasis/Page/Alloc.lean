import Stasis.Page.Compact

/-!
Allocation of a slot.

Allocation makes room by compaction when it has to, takes the slot off the free
list, puts the slots that lie between the end of the directory and the new slot
on the free list, and places the record. None of these steps moves another
record once there is room.
-/
namespace Stasis.Slotted
open Memory List Option

/-- The record fits behind the others when the directory is as long as slot `n` needs. -/
def Room (p : Bytes) (n size : Int) : Prop :=
  freespace p + size ≤ 4078 - 4 * max (numslots p) (n + 1)

/-- For an empty record there may be no room for the slot, though its size is not above what is
free. -/
theorem freespaceForSlot_spec (h : Arranged p) (nonneg : 0 ≤ n) :
    ∃ free, freespaceForSlot p n = some free ∧ 0 ≤ free ∧
      ∀ size, 1 ≤ size ∨ 0 ≤ size ∧ Room p n size → (size ≤ free ↔ Room p n size) := by
  have start := slotListStart_eq p
  have le := h.freespace_le
  rw [freespaceForSlot]
  simp only [if_neg (ne_invalidSlot nonneg), if_pos h.freespace_le]
  refine ⟨_, rfl, by split <;> omega, ?_⟩
  intro size fits
  rw [Room, overheadPerRecord] at *
  by_cases inside : n < numslots p
  · rw [if_pos inside]
    split <;> omega
  · rw [if_neg inside]
    by_cases full : slotListStart p < freespace p + 4 * (n + 1 - numslots p)
    · rw [if_pos full]
      omega
    · rw [if_neg full]
      omega

theorem makeRoom_spec (buffer : Bytes) (h : Sound p) (nonneg : 0 ≤ n)
    (fit : 1 ≤ size ∨ 0 ≤ size ∧ Room p n size)
    (room : ∀ q, compact buffer p = some q → Room q n size) :
    ∃ q, makeRoom buffer p n size = some q ∧ Sound q ∧ (∀ i, record q i = record p i) ∧
      Room q n size := by
  obtain ⟨free, eq, low, fits⟩ := freespaceForSlot_spec h.toArranged nonneg
  rw [makeRoom, eq, bind_some]
  by_cases tight : free < size
  · obtain ⟨q, compacted, out⟩ := compact_rebuilt h.toArranged buffer
    obtain ⟨free', eq', _, fits'⟩ := freespaceForSlot_spec out.arranged nonneg
    have enough := (fits' size (.inl (by omega))).mpr (room q compacted)
    refine ⟨q, ?_, out.sound, out.records, room q compacted⟩
    rw [if_pos tight, compacted, bind_some, eq', bind_some, if_pos enough]
  · refine ⟨p, if_neg tight, h, fun _ => rfl, ?_⟩
    exact (fits size fit).mp (by omega)

/-- Nothing changed that concerns a record. -/
structure Unmoved (p q : Bytes) : Prop where
  space : freespace q = freespace p
  live : ∀ i, Live q i ↔ Live p i
  offset : ∀ i, Live p i → slot q i = slot p i
  length : ∀ i, Live p i → slotLength q i = slotLength p i
  byte : ∀ a, a < freespace p → q a = p a

namespace Unmoved

theorem refl (p : Bytes) : Unmoved p p :=
  ⟨rfl, fun _ => Iff.rfl, fun _ _ => rfl, fun _ _ => rfl, fun _ _ => rfl⟩

theorem trans (first : Unmoved p q) (second : Unmoved q r) : Unmoved p r := by
  refine ⟨second.space.trans first.space, ?_, ?_, ?_, ?_⟩
  · exact fun i => (second.live i).trans (first.live i)
  · intro i live
    exact (second.offset i ((first.live i).mpr live)).trans (first.offset i live)
  · intro i live
    exact (second.length i ((first.live i).mpr live)).trans (first.length i live)
  · intro a lt
    exact (second.byte a (by rw [first.space]; exact lt)).trans (first.byte a lt)

theorem record_eq (same : Unmoved p q) (h : Arranged p) (i : Int) : record q i = record p i := by
  refine record_congr (same.live i) (same.length i) ?_
  intro live j _ high
  have inside := h.inside i live
  rw [same.offset i live]
  exact same.byte _ (by omega)

theorem arranged (same : Unmoved p q) (h : Arranged p) (nonneg : 0 ≤ numslots q)
    (le : freespace p ≤ slotListStart q) : Arranged q := by
  refine h.restrict nonneg ?_ ?_ ?_ ?_
  · rw [same.space]
    exact h.freespace_nonneg
  · rw [same.space]
    exact le
  · intro i live
    have old := (same.live i).mp live
    exact ⟨old, same.offset i old, by rw [same.length i old]⟩
  · intro i live
    rw [same.space]
    exact h.inside i ((same.live i).mp live)

end Unmoved

theorem freelistFind_spec (k : Nat)
    (threaded : Threaded (slotLength p) invalidSlot last (front ++ n :: back))
    (vacant : ∀ i ∈ front, Vacant p i) (fresh : n ∉ front) :
    freelistFind p n (k + front.length + 1) last (slotLength p last) =
      some ((last :: front).getLast (cons_ne_nil _ _), n) := by
  induction front generalizing last with
  | nil =>
    rw [freelistFind, threaded.1, if_neg fun h => h.2 rfl]
    rfl
  | cons c front ih =>
    have cell := vacant c (.head _)
    have ne : c ≠ n := fun same => fresh (same ▸ .head _)
    rw [freelistFind, threaded.1, if_pos ⟨threaded.2.1, ne⟩, if_pos ⟨cell.2.1, cell.2.2⟩,
      getLast_cons (cons_ne_nil _ _)]
    exact ih threaded.2.2 (fun i hi => vacant i (.tail _ hi)) fun mem => fresh (.tail _ mem)

theorem freelistTail_spec (k : Nat) (threaded : Threaded (slotLength p) invalidSlot last l)
    (vacant : ∀ i ∈ l, Vacant p i) :
    freelistTail p (k + l.length + 1) last (slotLength p last) =
      some ((last :: l).getLast (cons_ne_nil _ _)) := by
  induction l generalizing last with
  | nil => exact if_neg fun h => h threaded
  | cons c l ih =>
    have cell := vacant c (.head _)
    rw [freelistTail, threaded.1, if_pos threaded.2.1, if_pos ⟨cell.2.1, cell.2.2⟩,
      getLast_cons (cons_ne_nil _ _)]
    exact ih threaded.2.2 fun i hi => vacant i (.tail _ hi)

theorem FreeList.length_le (list : FreeList p hole l) : l.length ≤ (numslots p).toNat := by
  have sub : l.toFinset ⊆ Finset.Ico 0 (numslots p) := by
    intro i hi
    have cell := ((list.mem i).mp (mem_toFinset.mp hi)).1
    exact Finset.mem_Ico.mpr ⟨cell.1, cell.2.1⟩
  have count := Finset.card_le_card sub
  rw [toFinset_card_of_nodup list.nodup, Int.card_Ico] at count
  omega

theorem freelistFind_pred (list : FreeList p invalidSlot l) (mem : n ∈ l) :
    ∃ front back, l = front ++ n :: back ∧
      (if 0 < n ∧ slotLength p (n - 1) = n ∧ slot p (n - 1) = invalidSlot then
        some (n - 1, n)
      else freelistFind p n ((numslots p).toNat + 1) invalidSlot (freelist p)) =
        some ((invalidSlot :: front).getLast (cons_ne_nil _ _), n) := by
  have cell := ((list.mem n).mp mem).1
  split
  · next before =>
    have prev : n - 1 ∈ l := by
      have high := cell.2.1
      have pos := before.1
      exact (list.mem _).mpr ⟨⟨by omega, by omega, before.2.2⟩, ne_invalidSlot (by omega)⟩
    obtain ⟨front, back, rfl⟩ := append_of_mem prev
    have rest := list.threaded.of_append
    cases back with
    | nil => exact absurd (before.2.1.symm.trans rest) (list.threaded.ne_nil n mem)
    | cons c back =>
      have eq : c = n := rest.1.symm.trans before.2.1
      subst eq
      refine ⟨front ++ [c - 1], back, by simp, ?_⟩
      simp only [← cons_append, getLast_append_singleton]
  · obtain ⟨front, back, rfl⟩ := append_of_mem mem
    have count := list.length_le
    have parts := nodup_append.mp list.nodup
    rw [length_append] at count
    obtain ⟨k, fuel⟩ := Nat.exists_eq_add_of_le' (Nat.le_of_add_right_le count)
    rw [fuel]
    refine ⟨front, back, rfl, freelistFind_spec k list.threaded ?_ ?_⟩
    · intro i hi
      exact ((list.mem i).mp (mem_append_left _ hi)).1
    · intro hn
      exact parts.2.2 n hn n (.head _) rfl

/-- A new end of the free list concerns no record. -/
theorem Tail.unmoved (tail : Tail p last) (nonneg : 0 ≤ numslots p)
    (space : freespace p ≤ slotListStart p) (v : Int) :
    Unmoved p (setSlotLength p last v) ∧ numslots (setSlotLength p last v) = numslots p := by
  have range := tail.range nonneg
  rw [slotListStart_eq] at space
  have cell : ∀ k : Int, k ≠ 2 * last + 5 →
      int16FromEnd (setSlotLength p last v) k = int16FromEnd p k :=
    fun k ne => int16FromEnd_set_of_ne p _ ne
  have slots : numslots (setSlotLength p last v) = numslots p := cell 2 (by omega)
  have offsets : ∀ i, slot (setSlotLength p last v) i = slot p i :=
    fun i => cell (2 * i + 4) (by omega)
  refine ⟨⟨cell 1 (by omega), fun i => ?_, fun i _ => offsets i, fun i live => ?_, ?_⟩, slots⟩
  · rw [Live, Live, slots, offsets]
  · have ne := tail.ne_live live
    exact cell (2 * i + 5) (by omega)
  · intro a below
    exact setInt16FromEnd_of_below p _ (by simp only [usableSizeOfPage]; omega)

theorem freelistRemove_spec (h : Sound p) (nonneg : 0 ≤ n) :
    ∃ q l, freelistRemove p n = some q ∧ FreeList q n l ∧ Unmoved p q ∧
      numslots q = numslots p := by
  obtain ⟨l, list⟩ := h.list
  rw [freelistRemove]
  by_cases vacant : n < numslots p ∧ slot p n = invalidSlot
  · have mem : n ∈ l := (list.mem n).mpr ⟨⟨nonneg, vacant⟩, ne_invalidSlot nonneg⟩
    obtain ⟨front, back, rfl, found⟩ := freelistFind_pred list mem
    rw [if_pos vacant]
    dsimp only
    rw [found, map_some]
    dsimp only
    rw [if_pos rfl]
    have cells := list.cells_nodup
    have predMem := getLast_mem (cons_ne_nil invalidSlot front)
    have linked : ∀ next : Int → Int,
        next ((invalidSlot :: front).getLast (cons_ne_nil _ _)) = slotLength p n →
        (∀ c ∈ invalidSlot :: (front ++ back),
          c ≠ (invalidSlot :: front).getLast (cons_ne_nil _ _) →
            next c = slotLength p c) →
        Threaded next invalidSlot invalidSlot (front ++ back) :=
      fun next => list.threaded.unlink cells
    generalize (invalidSlot :: front).getLast (cons_ne_nil _ _) = last at predMem linked
    have uniform : (if last = invalidSlot then setFreelist p (slotLength p n)
        else setSlotLength p last (slotLength p n)) =
        setSlotLength p last (slotLength p n) := by
      split
      · next eq => rw [eq]; rfl
      · rfl
    rw [uniform]
    have tail := list.tail (cons_append ▸ mem_append_left _ predMem)
    obtain ⟨unmoved, slots⟩ := tail.unmoved h.numslots_nonneg h.freespace_le (slotLength p n)
    have cell : ∀ k, k ≠ 2 * last + 5 →
        int16FromEnd (setSlotLength p last (slotLength p n)) k = int16FromEnd p k :=
      fun k ne => int16FromEnd_set_of_ne p _ ne
    have moved : slotLength (setSlotLength p last (slotLength p n)) last = slotLength p n :=
      (int16FromEnd_set_self p _ _).trans (wrap16_int16FromEnd p _)
    refine ⟨_, front ++ back, rfl, ?_⟩
    generalize setSlotLength p last (slotLength p n) = q at cell moved unmoved slots
    have offsets : ∀ i, slot q i = slot p i := fun i => cell (2 * i + 4) (by omega)
    have rest : front ++ back = (front ++ n :: back).erase n := by
      rw [erase_append_right _ (fun mem => ?_), erase_cons_head]
      exact (nodup_append.mp list.nodup).2.2 n mem n (.head _) rfl
    refine ⟨⟨linked _ moved ?_, ?_, ?_⟩, unmoved, slots⟩
    · intro c _ ne
      exact cell (2 * c + 5) (by omega)
    · rw [rest]
      exact list.nodup.erase n
    · intro i
      rw [rest, list.nodup.mem_erase_iff, list.mem i, Vacant, Vacant, slots, offsets]
      constructor
      · exact fun h => ⟨h.2.1, h.1⟩
      · exact fun h => ⟨h.2, h.1, ne_invalidSlot h.1.1⟩
  · rw [if_neg vacant]
    refine ⟨p, l, rfl, ⟨list.threaded, list.nodup, ?_⟩, Unmoved.refl p, rfl⟩
    intro i
    rw [list.mem i]
    constructor
    · intro cell
      exact ⟨cell.1, fun eq => vacant (eq ▸ cell.1.2)⟩
    · intro cell
      exact ⟨cell.1, ne_invalidSlot cell.1.1⟩

section Gap
variable {p : Bytes} {n last : Int} {l : List Int}

/-- Append the slot behind the directory to a free list that ends in slot `last`. -/
def extendStep (p : Bytes) (last : Int) : Bytes :=
  let q := setSlot (setSlotLength p last (numslots p)) (numslots p) invalidSlot
  setNumslots q (numslots q + 1)

/-- Terminated behind slot `last`, the free list visits `l`. -/
structure Extending (p : Bytes) (n last : Int) (l : List Int) : Prop where
  list : FreeList (setSlotLength p last invalidSlot) n l
  last : last = (invalidSlot :: l).getLast (cons_ne_nil _ _)

section
variable (ext : Extending p n last l)
include ext

theorem Extending.vacant_iff (i : Int) : i ∈ l ↔ Vacant p i ∧ i ≠ n := by
  rw [ext.list.mem i, Vacant, Vacant]
  simp (disch := omega) only [int16FromEnd_set_of_ne]

theorem Extending.tail : Tail p last := by
  have mem := getLast_mem (cons_ne_nil invalidSlot l)
  rw [← ext.last] at mem
  exact (mem_cons.mp mem).imp_right fun mem => ((ext.vacant_iff last).mp mem).1

end

theorem extendStep_spec (nonneg : 0 ≤ numslots p) (lt : numslots p < n) (cap : n ≤ 1019)
    (space : freespace p ≤ 4078 - 4 * (n + 1)) (ext : Extending p n last l) :
    Extending (extendStep p last) n (numslots p) (l ++ [numslots p]) ∧
      Unmoved p (extendStep p last) ∧ numslots (extendStep p last) = numslots p + 1 := by
  have range := ext.tail.range nonneg
  have link : ∀ k : Int, k ≠ 2 → k ≠ 2 * last + 5 → k ≠ 2 * numslots p + 4 →
      int16FromEnd (extendStep p last) k = int16FromEnd p k := by
    intro k count length offset
    simp (disch := omega) only [extendStep, int16FromEnd_set_of_ne]
  have slots : numslots (extendStep p last) = numslots p + 1 := by
    simp (disch := omega) only [extendStep, int16FromEnd_set_of_ne, int16FromEnd_set_self]
    exact wrap16_of_range (v := numslots p + 1) (by omega) (by omega)
  have moved : slotLength (extendStep p last) last = numslots p := by
    simp (disch := omega) only [extendStep, int16FromEnd_set_of_ne, int16FromEnd_set_self,
      wrap16_int16FromEnd]
  have offset : slot (extendStep p last) (numslots p) = invalidSlot := by
    simp (disch := omega) only [extendStep, int16FromEnd_set_of_ne, int16FromEnd_set_self,
      wrap16_invalidSlot]
  have byte : ∀ a, a < freespace p → extendStep p last a = p a := by
    intro a below
    simp only [extendStep, setNumslots, setSlot, setSlotLength]
    rw [setInt16FromEnd_of_below, setInt16FromEnd_of_below, setInt16FromEnd_of_below] <;>
      simp only [usableSizeOfPage] <;> omega
  generalize extendStep p last = q at link slots moved offset byte
  have offsets : ∀ i, 0 ≤ i → i ≠ numslots p → slot q i = slot p i := fun i low ne =>
    link (2 * i + 4) (by omega) (by omega) (by omega)
  have vacants : ∀ i, Vacant q i ↔ Vacant p i ∨ i = numslots p := by
    intro i
    rw [Vacant, Vacant, slots]
    by_cases same : i = numslots p
    · rw [same]
      exact ⟨fun _ => .inr rfl, fun _ => ⟨nonneg, by omega, offset⟩⟩
    · constructor
      · intro h
        exact .inl ⟨h.1, by omega, (offsets i h.1 same).symm.trans h.2.2⟩
      · intro h
        have old := h.resolve_right same
        exact ⟨old.1, by omega, (offsets i old.1 same).trans old.2.2⟩
  have fresh : numslots p ∉ l := by
    intro mem
    have high := ((ext.vacant_iff _).mp mem).1.2.1
    omega
  refine ⟨⟨⟨?_, ?_, ?_⟩, ?_⟩, ⟨?_, ?_, ?_, ?_, byte⟩, slots⟩
  · have cells := ext.list.cells_nodup
    refine ext.list.threaded.concat (ne_invalidSlot nonneg) cells ?_ ?_ ?_
    · rw [← ext.last]
      simp (disch := omega) only [int16FromEnd_set_of_ne]
      exact moved
    · simp only [int16FromEnd_set_self, wrap16_invalidSlot]
    · intro c hc ne
      rw [← ext.last] at ne
      have cell : Tail p c :=
        (mem_cons.mp hc).imp_right fun mem => ((ext.vacant_iff c).mp mem).1
      have bound := cell.range nonneg
      simp (disch := omega) only [int16FromEnd_set_of_ne]
      exact link (2 * c + 5) (by omega) (by omega) (by omega)
  · refine nodup_append.mpr ⟨ext.list.nodup, nodup_singleton _, ?_⟩
    intro a ha b hb eq
    rw [mem_singleton] at hb
    exact fresh (hb ▸ eq ▸ ha)
  · intro i
    have same : Vacant (setSlotLength q (numslots p) invalidSlot) i ↔ Vacant q i := by
      rw [Vacant, Vacant]
      simp (disch := omega) only [int16FromEnd_set_of_ne]
    rw [same, vacants i, mem_append, mem_singleton, ext.vacant_iff i]
    constructor
    · intro h
      cases h with
      | inl old => exact ⟨.inl old.1, old.2⟩
      | inr new => exact ⟨.inr new, by omega⟩
    · intro h
      cases h.1 with
      | inl old => exact .inl ⟨old, h.2⟩
      | inr new => exact .inr new
  · simp only [← cons_append, getLast_append_singleton]
  · exact link 1 (by omega) (by omega) (by omega)
  · intro i
    rw [Live, Live, slots]
    constructor
    · intro h
      have ne : i ≠ numslots p := fun eq => h.2.2 (eq ▸ offset)
      exact ⟨h.1, by omega, offsets i h.1 ne ▸ h.2.2⟩
    · intro h
      have ne : i ≠ numslots p := by omega
      exact ⟨h.1, by omega, (offsets i h.1 ne).symm ▸ h.2.2⟩
  · intro i live
    have high := live.2.1
    exact offsets i live.1 (by omega)
  · intro i live
    have low := live.1
    have ne := ext.tail.ne_live live
    exact link (2 * i + 5) (by omega) (by omega) (by omega)

theorem freelistExtend_spec (fuel : Nat) (nonneg : 0 ≤ numslots p) (le : numslots p ≤ n)
    (cap : n ≤ 1019) (space : freespace p ≤ 4078 - 4 * (n + 1)) (ext : Extending p n last l)
    (enough : n - numslots p ≤ fuel) :
    ∃ q last' l', freelistExtend n fuel p last = some (q, last') ∧ Extending q n last' l' ∧
      Unmoved p q ∧ numslots q = n := by
  induction fuel generalizing p last l with
  | zero =>
    refine ⟨p, last, l, ?_, ext, Unmoved.refl p, by omega⟩
    rw [freelistExtend, if_neg (by omega)]
  | succ fuel ih =>
    by_cases more : numslots p < n
    · obtain ⟨ext', same, slots⟩ := extendStep_spec nonneg more cap space ext
      obtain ⟨q, last', l', run, ext'', same', slots'⟩ :=
        ih (by omega) (by omega) (by rw [same.space]; exact space) ext' (by omega)
      refine ⟨q, last', l', ?_, ext'', same.trans same', slots'⟩
      rw [freelistExtend, if_pos more]
      exact run
    · refine ⟨p, last, l, ?_, ext, Unmoved.refl p, by omega⟩
      rw [freelistExtend, if_neg more]

theorem FreeList.extending (list : FreeList p n l) :
    Extending p n ((invalidSlot :: l).getLast (cons_ne_nil _ _)) l := by
  refine ⟨⟨list.threaded.congr ?_, list.nodup, ?_⟩, rfl⟩
  · intro c _
    by_cases same : c = (invalidSlot :: l).getLast (cons_ne_nil _ _)
    · rw [same, list.threaded.last]
      exact (int16FromEnd_set_self _ _ _).trans wrap16_invalidSlot
    · exact int16FromEnd_set_of_ne _ _ (by omega)
  · intro i
    rw [list.mem i, Vacant, Vacant]
    simp (disch := omega) only [int16FromEnd_set_of_ne]

theorem freelistExtend_finish (nonneg : 0 ≤ numslots p) (le : numslots p ≤ n) (cap : n ≤ 1019)
    (space : freespace p ≤ 4078 - 4 * (n + 1)) (ext : Extending p n last l) :
    ∃ q l', ((freelistExtend n (n - numslots p).toNat p last).bind fun (q, lastSlot) =>
        if lastSlot < numslots q then some (setSlotLength q lastSlot invalidSlot) else none) =
          some q ∧ FreeList q n l' ∧ Unmoved p q ∧ numslots q = n := by
  obtain ⟨q, last', l', run, ext', same, slots⟩ :=
    freelistExtend_spec (n - numslots p).toNat nonneg le cap space ext (by omega)
  have range := ext'.tail.range (by omega)
  have start := slotListStart_eq q
  have space' : freespace q ≤ slotListStart q := by rw [same.space]; omega
  obtain ⟨same', slots'⟩ := ext'.tail.unmoved (by omega) space' invalidSlot
  refine ⟨_, l', ?_, ext'.list, same.trans same', slots'.trans slots⟩
  rw [run, bind_some]
  exact if_pos range.2

theorem setSlot_vacant (nonneg : 0 ≤ numslots p) (space : freespace p ≤ slotListStart p)
    (ext : Extending p n last l) (used : last ≠ invalidSlot) :
    Unmoved p (setSlot p last invalidSlot) ∧
      Extending (setSlot p last invalidSlot) n last l ∧
      numslots (setSlot p last invalidSlot) = numslots p := by
  have cell := ext.tail.resolve_left used
  have range := ext.tail.range nonneg
  have same : ∀ k : Int,
      int16FromEnd (setSlot p last invalidSlot) k = int16FromEnd p k := by
    intro k
    by_cases eq : k = 2 * last + 4
    · rw [eq]
      exact (int16FromEnd_set_self _ _ _).trans (wrap16_invalidSlot.trans cell.2.2.symm)
    · exact int16FromEnd_set_of_ne _ _ eq
  have byte : ∀ a, a < freespace p → setSlot p last invalidSlot a = p a := by
    intro a below
    rw [slotListStart_eq] at space
    exact setInt16FromEnd_of_below p _ (by simp only [usableSizeOfPage]; omega)
  generalize setSlot p last invalidSlot = q at same byte
  refine ⟨⟨same 1, ?_, fun i _ => same _, fun i _ => same _, byte⟩, ?_, same 2⟩
  · intro i
    rw [Live, Live, numslots, slot, same, same]
  · refine ⟨⟨ext.list.threaded.congr ?_, ext.list.nodup, ?_⟩, ext.last⟩
    · intro c _
      by_cases eq : c = last
      · rw [eq]
        simp only [int16FromEnd_set_self]
      · simp (disch := omega) only [int16FromEnd_set_of_ne]
        exact same _
    · intro i
      rw [ext.vacant_iff i, Vacant, Vacant]
      simp (disch := omega) only [int16FromEnd_set_of_ne]
      rw [numslots, slot, same, same]

theorem freelistAddGap_spec (nonneg : 0 ≤ numslots p) (cap : n ≤ 1018)
    (space : freespace p ≤ 4078 - 4 * (n + 1)) (list : FreeList p n l) :
    ∃ q l', freelistAddGap p n = some q ∧ FreeList q n l' ∧ Unmoved p q ∧
      numslots q = max (numslots p) n := by
  rw [freelistAddGap]
  by_cases gap : numslots p < n
  · rw [if_pos gap, Int.max_eq_right (by omega)]
    dsimp only
    by_cases empty : freelist p = invalidSlot
    · rw [if_pos empty, bind_some]
      have none : l = [] := list.threaded.unique (show slotLength p invalidSlot = _ from empty)
      subst none
      have ext : Extending p n invalidSlot [] := list.extending
      obtain ⟨ext', same, slots⟩ := extendStep_spec nonneg gap (by omega) space ext
      have space' : freespace (extendStep p invalidSlot) ≤ 4078 - 4 * (n + 1) := by
        rw [same.space]
        exact space
      obtain ⟨q, l', run, list', same', slots'⟩ :=
        freelistExtend_finish (by omega) (by omega) (by omega) space' ext'
      exact ⟨q, l', run, list', same.trans same', slots'⟩
    · have vacant : ∀ i ∈ l, Vacant p i := fun i hi => ((list.mem i).mp hi).1
      obtain ⟨k, fuel⟩ := Nat.exists_eq_add_of_le' list.length_le
      have found := freelistTail_spec k list.threaded vacant
      rw [← fuel] at found
      rw [if_neg empty]
      change ∃ q l', ((freelistTail p ((numslots p).toNat + 1) invalidSlot
        (slotLength p invalidSlot)).map _).bind _ = some q ∧ _
      rw [found, map_some, bind_some]
      dsimp only
      have ext := list.extending
      have used : (invalidSlot :: l).getLast (cons_ne_nil _ _) ≠ invalidSlot := by
        intro eq
        have stop := list.threaded.last
        rw [eq] at stop
        exact empty stop
      generalize (invalidSlot :: l).getLast (cons_ne_nil _ _) = last at ext used
      obtain ⟨same, list', slots⟩ := setSlot_vacant nonneg
        (by rw [slotListStart_eq]; omega) ext used
      have space' : freespace (setSlot p last invalidSlot) ≤ 4078 - 4 * (n + 1) := by
        rw [same.space]
        exact space
      obtain ⟨q, l', run, list'', same', slots'⟩ :=
        freelistExtend_finish (by omega) (by omega) (by omega) space' list'
      exact ⟨q, l', run, list'', same.trans same', slots'⟩
  · rw [if_neg gap, Int.max_eq_left (by omega)]
    exact ⟨p, l, rfl, list, Unmoved.refl p, rfl⟩

end Gap

section Place
variable {p : Bytes} {n type size : Int}

/-- The directory after the record is placed in slot `n`. -/
structure Placed (p q : Bytes) (n type size : Int) : Prop where
  count : numslots q = max (numslots p) (n + 1)
  space : freespace q = freespace p + size
  offset : slot q n = freespace p
  type : slotLength q n = type
  offsets : ∀ i, 0 ≤ i → i ≠ n → slot q i = slot p i
  lengths : ∀ i, -1 ≤ i → i ≠ n → slotLength q i = slotLength p i
  byte : ∀ a, a < freespace p → q a = p a

theorem placeRecord_placed (h : Arranged p) (nonneg : 0 ≤ n) (le : n ≤ numslots p)
    (known : recordTypeToSize type = some size) (pos : 0 ≤ size) (room : Room p n size) :
    ∃ q, placeRecord p (freespace p) n type size = some q ∧ Placed p q n type size := by
  rw [Room] at room
  have low := h.freespace_nonneg
  have slots := h.numslots_nonneg
  have range := type_range known (by omega)
  rw [placeRecord]
  have grown : numslots (if numslots p = n then setNumslots p (n + 1) else p) =
      max (numslots p) (n + 1) := by
    split
    · exact (int16FromEnd_set_self _ _ _).trans ((wrap16_of_range (by omega) (by omega)).trans
        (by omega))
    · omega
  have kept : ∀ k : Int, k ≠ 2 →
      int16FromEnd (if numslots p = n then setNumslots p (n + 1) else p) k =
        int16FromEnd p k := by
    intro k ne
    split
    · exact int16FromEnd_set_of_ne _ _ ne
    · rfl
  have below : ∀ a, a < freespace p →
      (if numslots p = n then setNumslots p (n + 1) else p) a = p a := by
    intro a lt
    split
    · exact setInt16FromEnd_of_below p _ (by simp only [usableSizeOfPage]; omega)
    · rfl
  generalize (if numslots p = n then setNumslots p (n + 1) else p) = r at grown kept below
  have space : freespace p = freespace r := (kept 1 (by omega)).symm
  rw [if_pos ⟨by omega, space⟩]
  refine ⟨_, rfl, ?_, ?_, ?_, ?_, ?_, ?_, ?_⟩
  · rw [← grown]
    simp (disch := omega) only [int16FromEnd_set_of_ne]
  · simp (disch := omega) only [int16FromEnd_set_of_ne, int16FromEnd_set_self]
    exact wrap16_of_range (v := freespace p + size) (by omega) (by omega)
  · simp (disch := omega) only [int16FromEnd_set_of_ne, int16FromEnd_set_self,
      wrap16_int16FromEnd]
  · exact (int16FromEnd_set_self _ _ _).trans (wrap16_of_range range.1 range.2)
  · intro i low ne
    simp (disch := omega) only [int16FromEnd_set_of_ne]
    exact kept (2 * i + 4) (by omega)
  · intro i low ne
    simp (disch := omega) only [int16FromEnd_set_of_ne]
    exact kept (2 * i + 5) (by omega)
  · intro a lt
    rw [← below a lt]
    simp only [setFreespace, setSlot, setSlotLength]
    rw [setInt16FromEnd_of_below, setInt16FromEnd_of_below, setInt16FromEnd_of_below] <;>
      simp only [usableSizeOfPage] <;> omega

namespace Placed
variable (placed : Placed p q n type size)
include placed

theorem live_iff (nonneg : 0 ≤ n) (le : n ≤ numslots p) (space : 0 ≤ freespace p) (i : Int) :
    Live q i ↔ Live p i ∨ i = n := by
  rw [Live, Live, placed.count]
  by_cases same : i = n
  · rw [same, placed.offset]
    exact ⟨fun _ => .inr rfl, fun _ => ⟨nonneg, by omega, ne_invalidSlot space⟩⟩
  · constructor
    · intro live
      exact .inl ⟨live.1, by omega, placed.offsets i live.1 same ▸ live.2.2⟩
    · intro live
      have old := live.resolve_right same
      exact ⟨old.1, by omega, (placed.offsets i old.1 same).symm ▸ old.2.2⟩

theorem extent_self (known : recordTypeToSize type = some size) : extent q n = size := by
  simp only [extent, placed.type, known, getD_some]

theorem extent_of_ne (low : 0 ≤ i) (ne : i ≠ n) : extent q i = extent p i := by
  simp only [extent, placed.lengths i (by omega) ne]

theorem arranged (h : Arranged p) (nonneg : 0 ≤ n) (le : n ≤ numslots p)
    (known : recordTypeToSize type = some size) (pos : 0 ≤ size) (room : Room p n size) :
    Arranged q := by
  rw [Room] at room
  have low := h.freespace_nonneg
  have slots := h.numslots_nonneg
  have live := placed.live_iff nonneg le low
  have self := placed.extent_self known
  have old : ∀ i, Live q i → i ≠ n → Live p i ∧ slot q i = slot p i ∧
      extent q i = extent p i := by
    intro i used ne
    exact ⟨((live i).mp used).resolve_right ne, placed.offsets i used.1 ne,
      placed.extent_of_ne used.1 ne⟩
  refine ⟨?_, ?_, ?_, ?_, ?_, ?_, ?_⟩
  · rw [placed.count]
    omega
  · rw [placed.space]
    omega
  · rw [placed.space, slotListStart_eq, placed.count]
    exact room
  · intro i used
    by_cases same : i = n
    · rw [same, self, placed.type]
      exact known
    · obtain ⟨was, _, size⟩ := old i used same
      rw [size, placed.lengths i (by have := used.1; omega) same]
      exact h.sized i was
  · intro i used
    rw [placed.space]
    by_cases same : i = n
    · rw [same, self, placed.offset]
    · obtain ⟨was, offset, size⟩ := old i used same
      have inside := h.inside i was
      rw [size, offset]
      omega
  · intro i used
    by_cases same : i = n
    · rw [same, placed.offset]
      exact fun _ => low
    · obtain ⟨was, offset, size⟩ := old i used same
      rw [size, offset]
      exact h.nonneg i was
  · intro i j used used' ne
    by_cases same : i = n
    · obtain ⟨was, offset, size⟩ := old j used' (fun eq => ne (same.trans eq.symm))
      have inside := h.inside j was
      rw [same, placed.offset, offset, size]
      exact fun _ _ => .inr inside
    · obtain ⟨was, offset, size⟩ := old i used same
      have inside := h.inside i was
      by_cases same' : j = n
      · rw [same', placed.offset, offset, size]
        exact fun _ _ => .inl inside
      · obtain ⟨was', offset', size'⟩ := old j used' same'
        rw [offset, size, offset', size']
        exact h.apart i j was was' ne

theorem freeList (nonneg : 0 ≤ n) (le : n ≤ numslots p) (space : 0 ≤ freespace p)
    (list : FreeList p n l) : FreeList q invalidSlot l := by
  refine ⟨list.threaded.congr ?_, list.nodup, ?_⟩
  · intro c hc
    cases mem_cons.mp hc with
    | inl eq =>
      refine placed.lengths c ?_ ?_ <;> rw [eq] <;> simp only [invalidSlot] <;> omega
    | inr mem =>
      have cell := (list.mem c).mp mem
      exact placed.lengths c (by have := cell.1.1; omega) cell.2
  · intro i
    rw [list.mem i, Vacant, Vacant, placed.count]
    constructor
    · intro cell
      refine ⟨⟨cell.1.1, by omega, ?_⟩, ne_invalidSlot cell.1.1⟩
      exact (placed.offsets i cell.1.1 cell.2).trans cell.1.2.2
    · intro cell
      have ne : i ≠ n := fun eq =>
        ne_invalidSlot space (placed.offset.symm.trans (eq ▸ cell.1.2.2))
      refine ⟨⟨cell.1.1, by omega, ?_⟩, ne⟩
      exact (placed.offsets i cell.1.1 ne).symm.trans cell.1.2.2

theorem record_of_ne (h : Arranged p) (nonneg : 0 ≤ n) (le : n ≤ numslots p) (ne : i ≠ n) :
    record q i = record p i := by
  have live : Live q i ↔ Live p i := by
    rw [placed.live_iff nonneg le h.freespace_nonneg i]
    exact ⟨fun h => h.resolve_right ne, .inl⟩
  refine record_congr live ?_ ?_
  · intro was
    exact placed.lengths i (by have := was.1; omega) ne
  · intro was j _ high
    have inside := h.inside i was
    rw [placed.offsets i was.1 ne]
    exact placed.byte _ (by omega)

end Placed

/-- Allocation of a slot succeeds when there is room for the record after compaction. Other
records keep their slot, type and bytes. -/
theorem postAlloc_sound (buffer : Bytes) (h : Sound p) (nonneg : 0 ≤ n)
    (known : recordTypeToSize type = some size) (fit : 1 ≤ size ∨ 0 ≤ size ∧ Room p n size)
    (room : ∀ q, compact buffer p = some q → Room q n size) :
    ∃ q, postAlloc buffer p n type = some q ∧ Sound q ∧
      (∀ i, i ≠ n → record q i = record p i) ∧ Live q n ∧ slotLength q n = type := by
  obtain ⟨p₁, made, valid, records, fits⟩ := makeRoom_spec buffer h nonneg fit room
  obtain ⟨p₂, l₂, removed, list₂, same₂, slots₂⟩ := freelistRemove_spec valid nonneg
  have pos : 0 ≤ size := by omega
  rw [Room] at fits
  have low := valid.freespace_nonneg
  have slots := valid.numslots_nonneg
  have space₂ := same₂.space
  obtain ⟨p₃, l₃, added, list₃, same₃, slots₃⟩ :=
    freelistAddGap_spec (p := p₂) (by omega) (by omega) (by omega) list₂
  have same := same₂.trans same₃
  have space₃ := same₃.space
  have arranged : Arranged p₃ := same.arranged valid.toArranged (by omega) (by
    rw [slotListStart_eq]
    omega)
  have fits₃ : Room p₃ n size := by
    rw [Room]
    omega
  obtain ⟨q, put, placed⟩ := placeRecord_placed arranged nonneg (by omega) known pos fits₃
  have live := (placed.live_iff nonneg (by omega) arranged.freespace_nonneg n).mpr (.inr rfl)
  refine ⟨q, ?_, ⟨placed.arranged arranged nonneg (by omega) known pos fits₃, l₃, ?_⟩, ?_,
    live, placed.type⟩
  · rw [postAlloc, known, bind_some, made, bind_some]
    dsimp only
    rw [removed, bind_some, added, bind_some, ← same.space]
    exact put
  · exact placed.freeList nonneg (by omega) arranged.freespace_nonneg list₃
  · intro i ne
    rw [placed.record_of_ne arranged nonneg (by omega) ne, same.record_eq valid.toArranged i,
      records i]

theorem postAlloc_spec (buffer : Bytes) (h : Valid p) (nonneg : 0 ≤ n)
    (known : recordTypeToSize type = some size) (pos : 1 ≤ size)
    (room : ∀ q, compact buffer p = some q → Room q n size) :
    ∃ q, postAlloc buffer p n type = some q ∧ Valid q ∧
      (∀ i, i ≠ n → record q i = record p i) ∧ Live q n ∧ slotLength q n = type := by
  obtain ⟨q, run, sound, records, live, stored⟩ :=
    postAlloc_sound buffer h.sound nonneg known (.inl pos) room
  refine ⟨q, run, sound.valid fun i live' => ?_, records, live, stored⟩
  by_cases same : i = n
  · rw [same, extent, stored, known]
    exact pos
  · obtain ⟨was, eq⟩ := extent_of_record_eq (records i same) live'
    rw [eq]
    exact h.positive i was

end Place

end Stasis.Slotted
