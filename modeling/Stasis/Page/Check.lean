import Stasis.Page.Alloc
import Stasis.Page.Free
import Stasis.Library.Fallible

/-!
The page check, and the pages that the operations produce.

A sound page passes every assertion of slotted_check. Each operation succeeds on
a valid page and gives a valid page, so every page that is built from an
initialised one passes the check.
-/
namespace Stasis.Slotted
open Memory List Option

theorem checkHeader_of_sound (h : Sound p) : checkHeader p = true := by
  have start := slotListStart_eq p
  have slots := h.numslots_nonneg
  have space := h.freespace_nonneg
  have le := h.freespace_le
  obtain ⟨l, list⟩ := h.list
  have head := list.head.range slots
  rw [checkHeader]
  apply decide_eq_true
  simp only [pageSize, overheadPerRecord]
  refine ⟨by omega, by omega, slots, by omega, space, le, head.1, head.2⟩

theorem checkSlots_of_sound (h : Sound p) (list : FreeList p invalidSlot l) {n : Nat}
    (le : (n : Int) ≤ numslots p) :
    checkSlots p (decide ((invalidSlot :: l).getLast (cons_ne_nil _ _) < 0)) n =
      some (decide ((invalidSlot :: l).getLast (cons_ne_nil _ _) < n)) := by
  have stop := list.threaded.last
  have succ : ∀ c ∈ l, c = (invalidSlot :: l).getLast (cons_ne_nil _ _) ∨
      slotLength p c ∈ l := fun c hc => list.threaded.succ_mem (.tail _ hc)
  have lastMem := getLast_mem (cons_ne_nil invalidSlot l)
  generalize (invalidSlot :: l).getLast (cons_ne_nil _ _) = last at stop succ lastMem ⊢
  induction n with
  | zero => rfl
  | succ n ih =>
    rw [checkSlots, ih (by omega), bind_some, checkSlot]
    by_cases vacant : slot p n = invalidSlot
    · have mem : (n : Int) ∈ l := (list.mem n).mpr
        ⟨⟨by omega, by omega, vacant⟩, ne_invalidSlot (by omega)⟩
      rw [if_pos vacant]
      by_cases same : (n : Int) = last
      · rw [if_pos (same ▸ stop)]
        have before : ¬ last < n := by omega
        have after : last < (n + 1 : Nat) := by omega
        simp only [before, after, decide_false, decide_true, Bool.false_eq_true, if_false]
      · have link := (succ n mem).resolve_left same
        have cell := ((list.mem _).mp link).1
        rw [if_neg (list.threaded.ne_nil _ link), if_pos ⟨cell.1, cell.2.1, cell.2.2⟩]
        have iff : last < (n + 1 : Nat) ↔ last < n := by omega
        simp only [iff]
    · have live : Live p n := ⟨by omega, by omega, vacant⟩
      have fits : slot p n + slotLength p n ≤ freespace p := by
        have inside := h.inside n live
        have size := recordTypeToSize_eq_some_iff.mp (h.sized n live)
        simp only [blobSlot, sizeofBlobRecord] at size
        omega
      have ne := (list.tail lastMem).ne_live live
      rw [if_neg vacant, if_pos fits]
      have iff : last < (n + 1 : Nat) ↔ last < n := by omega
      simp only [iff]

theorem checkFreelist_of_sound (h : Sound p) : checkFreelist p = some true := by
  have slots := h.numslots_nonneg
  obtain ⟨l, list⟩ := h.list
  have run := checkSlots_of_sound (n := (numslots p).toNat) h list (by omega)
  have low : (invalidSlot :: l).getLast (cons_ne_nil _ _) < (numslots p).toNat := by
    have range := (list.tail (getLast_mem (cons_ne_nil invalidSlot l))).range slots
    omega
  rw [checkFreelist]
  cases l with
  | nil =>
    have head : freelist p = invalidSlot := list.threaded
    rw [if_neg (fun h => h head)]
    exact run.trans (by rw [decide_eq_true low])
  | cons c l =>
    have head : freelist p = c := list.threaded.1
    have cell := ((list.mem c).mp (.head _)).1
    have last : ¬ (invalidSlot :: c :: l).getLast (cons_ne_nil _ _) < 0 := by
      rw [getLast_cons (cons_ne_nil _ _)]
      have := ((list.mem _).mp (getLast_mem (cons_ne_nil c l))).1.1
      omega
    rw [head, if_pos list.threaded.2.1, if_pos cell.2.2]
    rw [decide_eq_false last, decide_eq_true low] at run
    exact run

theorem markSlots_byte (image : Bytes) {n : Nat} {a : Int} (below : a < 4078 - 4 * n) :
    markSlots image n a = image a := by
  induction n with
  | zero => rfl
  | succ n ih =>
    rw [markSlots, setSlotLength, setSlot,
      setInt16FromEnd_of_below _ _ (by simp only [usableSizeOfPage]; omega),
      setInt16FromEnd_of_below _ _ (by simp only [usableSizeOfPage]; omega)]
    exact ih (by omega)

theorem checkImage_byte (h : Sound p) {a : Int} (low : 0 ≤ a) (high : a < freespace p) :
    checkImage p a = 0xFF := by
  have start := slotListStart_eq p
  have slots := h.numslots_nonneg
  have le := h.freespace_le
  have header : a < usableSizeOfPage - headerOverhead := by
    simp only [usableSizeOfPage, headerOverhead]
    omega
  have usable : a < usableSizeOfPage := by simp only [usableSizeOfPage]; omega
  rw [checkImage, markSlots_byte _ (by omega), fill_of_outside _ _ (.inl high),
    fill_of_outside _ _ (.inl header), fill_of_outside _ _ (.inl usable)]
  exact fill_of_inside _ _ low (by simp only [pageSize]; omega)

theorem markRecord_spec (mark : UInt8) (unused : ∀ j : Nat, j < n → image (offset + j) = 0xFF) :
    ∃ image', markRecord image offset mark n = some image' ∧
      ∀ a, a < offset ∨ offset + n ≤ a → image' a = image a := by
  induction n with
  | zero => exact ⟨image, rfl, fun _ _ => rfl⟩
  | succ n ih =>
    obtain ⟨image', run, same⟩ := ih fun j lt => unused j (by omega)
    have next : image' (offset + n) = 0xFF :=
      (same _ (.inr le_rfl)).trans (unused n (Nat.lt_succ_self n))
    refine ⟨Function.update image' (offset + n) mark, ?_, ?_⟩
    · rw [markRecord, run, bind_some, if_pos next]
    · intro a out
      rw [Function.update_of_ne (by omega)]
      exact same a (by omega)

theorem markRecords_spec (h : Sound p) {n : Nat} (le : (n : Int) ≤ numslots p) :
    ∃ image, markRecords p (checkImage p) n = some image ∧
      ∀ a, 0 ≤ a → a < freespace p →
        (∀ k : Nat, k < n → slot p k ≠ invalidSlot →
          a < slot p k ∨ slot p k + extent p k ≤ a) → image a = 0xFF := by
  induction n with
  | zero => exact ⟨_, rfl, fun a low high _ => checkImage_byte h low high⟩
  | succ n ih =>
    obtain ⟨image, run, unused⟩ := ih (by omega)
    rw [markRecords, run, bind_some]
    by_cases vacant : slot p n = invalidSlot
    · rw [if_neg (fun h => h vacant)]
      exact ⟨image, rfl, fun a low high out => unused a low high fun k lt used =>
        out k (by omega) used⟩
    · have live : Live p n := ⟨by omega, by omega, vacant⟩
      have inside := h.inside n live
      have nonneg := h.nonneg n live
      have free : ∀ j : Nat, j < (extent p n).toNat → image (slot p n + j) = 0xFF := by
        intro j lt
        apply unused _ (by omega) (by omega)
        intro k lt' used
        have live' : Live p k := ⟨by omega, by omega, used⟩
        have size := size_nonneg (h.sized k live')
        have apart := h.apart k n live' live (by omega)
        omega
      obtain ⟨image', mark, same⟩ := markRecord_spec (UInt8.ofNat (n % 0xFF)) free
      refine ⟨image', ?_, ?_⟩
      · rw [if_pos vacant, h.sized n live, bind_some]
        exact mark
      · intro a low high out
        have outside := out n (Nat.lt_succ_self n) vacant
        rw [same a (by omega)]
        exact unused a low high fun k lt used => out k (by omega) used

theorem check_of_sound (h : Sound p) : check p = true := by
  have slots := h.numslots_nonneg
  obtain ⟨image, run, _⟩ := markRecords_spec (n := (numslots p).toNat) h (by omega)
  rw [check, checkHeader_of_sound h, checkFreelist_of_sound h, run]
  rfl

theorem compact_room (h : Arranged p) (run : compact buffer p = some q) (room : Room p n size) :
    Room q n size := by
  obtain ⟨_, run', out⟩ := compact_rebuilt h buffer
  cases run.symm.trans run'
  have slots := h.numslots_nonneg
  have space := usedBelow_le_freespace (n := (numslots p).toNat) h (by omega)
  have slots_le := out.slots_le
  rw [Room] at room ⊢
  rw [out.space]
  omega

/-- The slot that pre_alloc looks at. -/
def offered (p : Bytes) : Int :=
  if freelist p ≠ invalidSlot then freelist p else numslots p

theorem preAlloc_spec (h : Sound p) (known : recordTypeToSize type = some size)
    (fit : 1 ≤ size ∨ 0 ≤ size ∧ Room p (offered p) size) :
    ∃ n, preAlloc p type = some n ∧
      (n ≠ invalidSlot → n = offered p ∧ 0 ≤ n ∧ ¬ Live p n ∧ Room p n size) := by
  have ne : type ≠ invalidSlot := by
    intro eq
    rw [eq] at known
    exact nomatch known
  have unused : 0 ≤ offered p ∧ ¬ Live p (offered p) := by
    rw [offered]
    split
    · next some =>
      obtain ⟨l, list⟩ := h.list
      have cell := list.head.resolve_left some
      exact ⟨cell.1, fun live => live.2.2 cell.2.2⟩
    · exact ⟨h.numslots_nonneg, fun live => absurd live.2.1 (by omega)⟩
  obtain ⟨free, eq, _, fits⟩ := freespaceForSlot_spec h.toArranged unused.1
  rw [preAlloc, if_pos ne]
  dsimp only
  rw [← offered, eq, bind_some, known, map_some]
  refine ⟨_, rfl, ?_⟩
  split
  · exact fun none => absurd rfl none
  · exact fun _ => ⟨rfl, unused.1, unused.2, (fits size fit).mp (by omega)⟩

/-- The calls that change the directory of a page. `buffer` is what the buffer of a
compaction holds before it is filled. -/
inductive PageOp where
  | alloc (type : Int) (buffer : Bytes)
  | allocSlot (n type : Int) (buffer : Bytes)
  | free (n : Int)
  | setType (n type : Int)
  | compact (buffer : Bytes)

namespace PageOp

/-- A caller of pre_alloc leaves the page alone when it gets INVALID_SLOT. -/
def run (p : Bytes) : PageOp → Option Bytes
  | .alloc type buffer => (preAlloc p type).bind fun n =>
    if n = invalidSlot then some p else postAlloc buffer p n type
  | .allocSlot n type buffer => postAlloc buffer p n type
  | .free n => Slotted.free p n
  | .setType n type => Slotted.setType p n type
  | .compact buffer => Slotted.compact buffer p

/-- Which calls a caller may make. Records have at least one byte, and an explicitly
chosen slot is unoccupied and has room after compaction. -/
def Allowed (p : Bytes) : PageOp → Prop
  | .alloc type _ => ∃ size, recordTypeToSize type = some size ∧ 1 ≤ size
  | .allocSlot n type buffer => 0 ≤ n ∧ ¬ Live p n ∧
      ∃ size, recordTypeToSize type = some size ∧ 1 ≤ size ∧
        ∃ q free, Slotted.compact buffer p = some q ∧ freespaceForSlot q n = some free ∧
          size ≤ free
  | .free n => Live p n
  | .setType n type => Live p n ∧
      (type = normalSlot ∨ recordTypeToSize type = recordTypeToSize (slotLength p n))
  | .compact _ => True

theorem run_valid (h : Valid p) (op : PageOp) (allowed : op.Allowed p) :
    ∃ q, op.run p = some q ∧ Valid q := by
  cases op with
  | alloc type buffer =>
    obtain ⟨size, known, pos⟩ := allowed
    obtain ⟨n, eq, offered⟩ := preAlloc_spec h.sound known (.inl pos)
    rw [run, eq, bind_some]
    by_cases none : n = invalidSlot
    · exact ⟨p, if_pos none, h⟩
    · obtain ⟨_, nonneg, _, room⟩ := offered none
      obtain ⟨q, post, valid, _⟩ := postAlloc_spec buffer h nonneg known pos
        fun q' compacted => compact_room h.arranged compacted room
      exact ⟨q, (if_neg none).trans post, valid⟩
  | allocSlot n type buffer =>
    obtain ⟨nonneg, _, size, known, pos, q', free, compacted, eq, fits⟩ := allowed
    obtain ⟨q'', compacted', out⟩ := compact_spec h.toLayout buffer
    obtain ⟨free', eq', _, enough⟩ := freespaceForSlot_spec out.valid.arranged nonneg
    have same : q'' = q' := some.inj (compacted'.symm.trans compacted)
    subst same
    have freeEq : free' = free := some.inj (eq'.symm.trans eq)
    have room := (enough size (.inl pos)).mp (by omega)
    obtain ⟨q, post, valid, _⟩ := postAlloc_spec buffer h nonneg known pos fun q eq =>
      some.inj (compacted.symm.trans eq) ▸ room
    exact ⟨q, post, valid⟩
  | free n =>
    obtain ⟨q, eq, valid, _⟩ := free_spec h allowed
    exact ⟨q, eq, valid⟩
  | setType n type =>
    have known := h.sized n allowed.1
    refine setType_valid h allowed.1 ?_
    rw [← known]
    exact allowed.2
  | compact buffer =>
    obtain ⟨q, eq, out⟩ := compact_spec h.toLayout buffer
    exact ⟨q, eq, out.valid⟩

end PageOp

/-- The pages that such calls make of an initialised page. -/
inductive Reachable : Bytes → Prop
  | fresh (m : Bytes) : Reachable (initializePageRaw m)
  | step (p q : Bytes) (op : PageOp) (reached : Reachable p) (allowed : op.Allowed p)
      (run : op.run p = some q) : Reachable q

theorem reachable_valid (reached : Reachable p) : Valid p := by
  induction reached with
  | fresh m => exact initializePageRaw_valid m
  | step p q op _ allowed run ih =>
    obtain ⟨q', run', valid⟩ := op.run_valid ih allowed
    exact some.inj (run'.symm.trans run) ▸ valid

/-- Every reachable page is valid and passes slotted_check, and no call that may be made
on it fails. -/
theorem reachable_page_checks (p : Bytes) (reached : Reachable p) :
    Valid p ∧ check p = true ∧ ∀ op : PageOp, op.Allowed p → (op.run p).isSome := by
  have valid := reachable_valid reached
  refine ⟨valid, check_of_sound valid.sound, ?_⟩
  intro op allowed
  obtain ⟨q, run, _⟩ := op.run_valid valid allowed
  rw [run]
  rfl

/-- A record in slot 3 of a fresh page. The slots before it go on the free list. -/
theorem reachable_page_checks_gap :
    ∃ p, Reachable p ∧ (numslots p, freelist p, slotLength p 3) = (4, 0, 20) ∧ Valid p ∧
      check p = true := by
  obtain ⟨q, compacted, free⟩ : ∃ q, compact (fun _ => 0) (initializePageRaw fun _ => 0) = some q ∧
      freespaceForSlot q 3 = some 4062 := by decide +kernel
  have allowed : (PageOp.allocSlot 3 20 fun _ => 0).Allowed
      (initializePageRaw fun _ => 0) :=
    ⟨by decide, by decide +kernel, 20, rfl, by decide, q, 4062, compacted, free, by decide⟩
  obtain ⟨p, run, cells⟩ :
      ∃ p, (PageOp.allocSlot 3 20 fun _ => 0).run (initializePageRaw fun _ => 0) = some p ∧
        (numslots p, freelist p, slotLength p 3) = (4, 0, 20) := by
    decide +kernel
  have reached := Reachable.step _ _ _ (.fresh _) allowed run
  have checked := reachable_page_checks p reached
  exact ⟨p, reached, cells, checked.1, checked.2.1⟩

end Stasis.Slotted
