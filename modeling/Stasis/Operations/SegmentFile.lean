import Stasis.Library.Memory

/-!
Segment files.

The pages of a segment are read and written as one sequence of bytes. A range is cut into its part
of the first page, the pages between and its part of the last page. A user buffer and the args of
a log entry are byte memories from 0 on; what is in them before a call is arbitrary.
-/
namespace Stasis.SegmentFile
open Function Memory

abbrev Pages := Int → Bytes

/-- Copy between a page and the user buffer. -/
def copyPage (read : Bool) (page pageOff bufOff sz : Int) (s : Pages × Bytes) : Pages × Bytes :=
  if read then (s.1, copy s.2 bufOff (s.1 page) pageOff sz)
  else (update s.1 page (copy (s.1 page) pageOff s.2 bufOff sz), s.2)

def readWriteHelper (read : Bool) (count offset : Int) (s : Pages × Bytes) : Pages × Bytes :=
  let start := offset / 4096
  let stop := (offset + count - 1) / 4096
  let startOffset := offset % 4096
  let s := copyPage read start startOffset 0 (min (startOffset + count) 4096 - startOffset) s
  let bufPhase := 4096 - startOffset
  let n := (stop - 1 - (start + 1)).toNat
  let s := (List.range n).foldl (fun s (k : Nat) =>
    copyPage read (start + 1 + k) 0 (bufPhase + k * 4096) 4096 s) s
  if start = stop then s else copyPage read stop 0 (bufPhase + n * 4096) (count % 4096) s

def tpread (pages : Pages) (buf : Bytes) (count offset : Int) : Bytes :=
  (readWriteHelper true count offset (pages, buf)).2

/-- The bytes of the args are behind the offset: first the new ones, then the old ones. -/
structure Entry where
  offset : Int
  count : Int
  args : Bytes

def opSegmentFilePwrite (e : Entry) (pages : Pages) : Pages :=
  (readWriteHelper false e.count e.offset (pages, e.args)).1

def opSegmentFilePwriteInverse (e : Entry) (pages : Pages) : Pages :=
  (readWriteHelper false e.count e.offset (pages, fun k => e.args (e.count + k))).1

/-- `buf2` and `args` are what malloc returns. -/
def tpwrite (buf2 args : Bytes) (pages : Pages) (buf : Bytes) (count offset : Int) :
    Entry × Pages :=
  let buf2 := tpread pages buf2 count offset
  let e : Entry := ⟨offset, count, copy (copy args 0 buf 0 count) count buf2 0 count⟩
  (e, opSegmentFilePwrite e pages)

def byteAt (pages : Pages) (x : Int) : UInt8 := pages (x / 4096) (x % 4096)

/-- The range is on one page, or is a page and a part of the next one. -/
def Whole (count offset : Int) : Prop :=
  offset % 4096 + count ≤ 4096 ∨
    offset % 4096 = 0 ∧ 4096 < count ∧ count < 2 * 4096

section Page
variable {sz : Int} (low : 0 ≤ off) (high : off + sz ≤ 4096) (s : Pages × Bytes)
include low high

theorem copyPage_read (k : Int) : (copyPage true page off bufOff sz s).2 k =
    if bufOff ≤ k ∧ k < bufOff + sz then byteAt s.1 (page * 4096 + off + (k - bufOff))
    else s.2 k := by
  simp only [copyPage, if_true, copy, byteAt]
  split
  · rw [show (page * 4096 + off + (k - bufOff)) / 4096 = page by omega,
      show (page * 4096 + off + (k - bufOff)) % 4096 = off + (k - bufOff) by omega]
  · rfl

theorem copyPage_write (x : Int) : byteAt (copyPage false page off bufOff sz s).1 x =
    if page * 4096 + off ≤ x ∧ x < page * 4096 + off + sz then
      s.2 (bufOff + (x - (page * 4096 + off)))
    else byteAt s.1 x := by
  simp only [copyPage, Bool.false_eq_true, if_false, byteAt, update_apply]
  by_cases here : x / 4096 = page
  · rw [if_pos here, here]
    exact if_congr (by omega) (congrArg s.2 (by omega)) rfl
  · rw [if_neg here, if_neg (by omega)]

end Page

section Flat
variable (pos : 1 ≤ count) (whole : Whole count offset) (pages : Pages) (buf : Bytes)
include pos whole

/-- The loop over the pages between is not entered. -/
theorem readWriteHelper_eq (read : Bool) (s : Pages × Bytes) : readWriteHelper read count offset s =
    if offset % 4096 + count ≤ 4096 then
      copyPage read (offset / 4096) (offset % 4096) 0 count s
    else copyPage read (offset / 4096 + 1) 0 4096 (count - 4096)
      (copyPage read (offset / 4096) 0 0 4096 s) := by
  simp only [Whole] at whole
  simp only [readWriteHelper]
  by_cases one : offset % 4096 + count ≤ 4096
  · have last : (offset + count - 1) / 4096 = offset / 4096 := by omega
    have none : (offset / 4096 - 1 - (offset / 4096 + 1)).toNat = 0 := by omega
    have size : min (offset % 4096 + count) 4096 - offset % 4096 = count := by omega
    simp only [one, last, none, size, if_true, List.range_zero, List.foldl_nil]
  · have last : (offset + count - 1) / 4096 = offset / 4096 + 1 := by omega
    have none : (offset / 4096 + 1 - 1 - (offset / 4096 + 1)).toNat = 0 := by omega
    have size : min (0 + count) 4096 - 0 = 4096 := by omega
    have rest : count % 4096 = count - 4096 := by omega
    have phase : offset % 4096 = 0 := by omega
    have ne : offset / 4096 ≠ offset / 4096 + 1 := by omega
    rw [if_neg one]
    simp only [last, none, size, rest, phase, if_neg ne, List.range_zero, List.foldl_nil]
    rfl

theorem tpread_eq (k : Int) : tpread pages buf count offset k =
    if 0 ≤ k ∧ k < count then byteAt pages (offset + k) else buf k := by
  rw [tpread, readWriteHelper_eq pos whole]
  unfold Whole at whole
  split
  · rw [copyPage_read (by omega) (by omega)]
    exact if_congr (by omega) (congrArg _ (by omega)) rfl
  · rw [copyPage_read (by omega) (by omega), copyPage_read (by omega) (by omega)]
    simp only [copyPage, if_true]
    grind

theorem byteAt_write (x : Int) : byteAt (readWriteHelper false count offset (pages, buf)).1 x =
    if offset ≤ x ∧ x < offset + count then buf (x - offset) else byteAt pages x := by
  rw [readWriteHelper_eq pos whole]
  unfold Whole at whole
  split
  · rw [copyPage_write (by omega) (by omega)]
    exact if_congr (by omega) (congrArg buf (by omega)) rfl
  · rw [copyPage_write (by omega) (by omega), copyPage_write (by omega) (by omega)]
    simp only [copyPage, Bool.false_eq_true, if_false]
    grind

end Flat

section Parts
variable {count offset k : Int} (apart : offset / 4096 ≠ (offset + count - 1) / 4096)
  (pages : Pages) (buf : Bytes)

/-- The number of pages that the loop copies, and the place in the buffer behind their bytes. -/
def between (count offset : Int) : Nat :=
  ((offset + count - 1) / 4096 - 1 - (offset / 4096 + 1)).toNat

def lastPhase (count offset : Int) : Int := 4096 - offset % 4096 + between count offset * 4096

include apart

/-- What the first page and those between keep holds when the last page is copied. -/
theorem readWriteHelper_last (read : Bool) {P : Pages × Bytes → Prop}
    (first : P (copyPage read (offset / 4096) (offset % 4096) 0
      (min (offset % 4096 + count) 4096 - offset % 4096) (pages, buf)))
    (loop : ∀ s, ∀ j < between count offset, P s →
      P (copyPage read (offset / 4096 + 1 + j) 0 (4096 - offset % 4096 + j * 4096) 4096 s)) :
    ∃ s, P s ∧ readWriteHelper read count offset (pages, buf) =
      copyPage read ((offset + count - 1) / 4096) 0 (lastPhase count offset) (count % 4096) s := by
  refine ⟨_, List.foldlRecOn (List.range (between count offset)) _ first fun s kept j mem =>
    loop s j (List.mem_range.mp mem) kept, ?_⟩
  rw [readWriteHelper]
  exact if_neg apart

theorem tpread_last (behind : lastPhase count offset ≤ k) : tpread pages buf count offset k =
    copy buf (lastPhase count offset) (pages ((offset + count - 1) / 4096)) 0 (count % 4096) k := by
  unfold lastPhase at behind
  obtain ⟨s, ⟨same, old⟩, eq⟩ := readWriteHelper_last apart pages buf true
    (P := fun s => s.1 = pages ∧ s.2 k = buf k) ⟨rfl, copy_of_outside _ _ (by omega)⟩
    fun s j below ⟨same, old⟩ => ⟨same, (copy_of_outside _ _ (by omega)).trans old⟩
  simp only [tpread, eq, copyPage, if_true, copy, same, old]

theorem write_last (q : Int) (off : q ≠ offset / 4096)
    (loop : q < offset / 4096 + 1 ∨ offset / 4096 + 1 + between count offset ≤ q) :
    (readWriteHelper false count offset (pages, buf)).1 q =
      if q = (offset + count - 1) / 4096 then
        copy (pages q) 0 buf (lastPhase count offset) (count % 4096)
      else pages q := by
  obtain ⟨s, ⟨same, old⟩, eq⟩ := readWriteHelper_last apart pages buf false
    (P := fun s => s.2 = buf ∧ s.1 q = pages q) ⟨rfl, update_of_ne off _ _⟩
    fun s j below ⟨same, old⟩ => ⟨same, (update_of_ne (by omega) _ _).trans old⟩
  simp only [eq, copyPage, Bool.false_eq_true, if_false, update_apply]
  split
  · next here => rw [← here, same, old]
  · exact old

end Parts

/-- What a read of one range finds after a write of another, and what the inverse of the write
leaves, for every segment and every content of the buffers. -/
def Flat (count offset count' offset' : Int) : Prop :=
  ∀ (buf2 args buf' buf : Bytes) (pages : Pages),
    let written := tpwrite buf2 args pages buf count offset
    (∀ k, tpread written.2 buf' count' offset' k =
      if 0 ≤ k ∧ k < count' then
        if offset ≤ offset' + k ∧ offset' + k < offset + count then buf (offset' + k - offset)
        else byteAt pages (offset' + k)
      else buf' k) ∧
    ∀ x, byteAt (opSegmentFilePwriteInverse written.1 written.2) x = byteAt pages x

theorem tpwrite_bytes (pos : 1 ≤ count) (whole : Whole count offset) (buf2 args buf : Bytes)
    (pages : Pages) (x : Int) : byteAt (tpwrite buf2 args pages buf count offset).2 x =
      if offset ≤ x ∧ x < offset + count then buf (x - offset) else byteAt pages x := by
  refine (byteAt_write pos whole _ _ x).trans ?_
  split
  · show copy _ _ _ _ _ _ = _
    rw [copy_of_outside _ _ (by omega), copy_of_inside _ _ (by omega) (by omega)]
    exact congrArg buf (by omega)
  · rfl

theorem flat_of_whole (pos : 1 ≤ count) (whole : Whole count offset) (pos' : 1 ≤ count')
    (whole' : Whole count' offset') : Flat count offset count' offset' := by
  intro buf2 args buf' buf pages written
  have bytes := tpwrite_bytes pos whole buf2 args buf pages
  refine ⟨fun k => ?_, fun x => ?_⟩
  · rw [tpread_eq pos' whole', bytes]
  · refine (byteAt_write pos whole _ _ x).trans ?_
    split
    · show copy _ count _ _ _ (count + (x - offset)) = _
      rw [copy_of_inside _ _ (by omega) (by omega), tpread_eq pos whole, if_pos (by omega)]
      exact congrArg (byteAt pages) (by omega)
    · rw [bytes, if_neg ‹_›]

section Broken
variable {count offset : Int}

/-- Either a page in front of the last one is left out, or too many or too few bytes of the last
page are copied. -/
theorem not_whole (broken : ¬ Whole count offset) :
    offset / 4096 ≠ (offset + count - 1) / 4096 ∧
      (offset / 4096 + 1 + between count offset = (offset + count - 1) / 4096 - 1 ∨
        (offset + count - 1) / 4096 = offset / 4096 + 1 ∧ between count offset = 0 ∧
          (count < 4096 ∨ count % 4096 < offset % 4096 + count - 4096)) := by
  unfold Whole at broken
  unfold between
  omega

theorem whole_of_flat_write (pos : 1 ≤ count) (flat : ∀ x, Flat count offset 1 x) :
    Whole count offset := by
  by_contra broken
  let pages : Pages := fun _ _ => 0
  let args := copy (copy (fun _ => 9) 0 (fun _ => 1) 0 count) count
    (tpread pages (fun _ => 9) count offset) 0 count
  have bytes : ∀ x, (readWriteHelper false count offset (pages, args)).1 (x / 4096) (x % 4096) =
      if offset ≤ x ∧ x < offset + count then 1 else 0 := by
    intro x
    have one := (flat x (fun _ => 9) (fun _ => 9) (fun _ => 9) (fun _ => 1) pages).1 0
    rw [tpread_eq (by decide) (.inl (by omega)), if_pos (by decide), if_pos (by decide),
      Int.add_zero] at one
    exact one
  obtain ⟨apart, far | ⟨next, none, part⟩⟩ := not_whole broken
  · have left := bytes (((offset + count - 1) / 4096 - 1) * 4096)
    rw [write_last apart _ _ _ (by omega) (by omega), if_neg (by omega), if_pos (by omega)] at left
    exact absurd left (by decide)
  · have phase : lastPhase count offset = 4096 - offset % 4096 := by
      rw [lastPhase, none]
      omega
    by_cases short : count < 4096
    · -- the inverse copies what is behind the args
      have back : (readWriteHelper false count offset (_, fun k => args (count + k))).1
          ((offset + count) / 4096) ((offset + count) % 4096) = 0 :=
        (flat 0 (fun _ => 9) (fun _ => 9) (fun _ => 9) (fun _ => 1) pages).2 (offset + count)
      rw [write_last apart _ _ _ (by omega) (by omega), if_pos (by omega),
        copy_of_inside _ _ (by omega) (by omega)] at back
      have behind : args (count + (lastPhase count offset + ((offset + count) % 4096 - 0))) = 9 :=
        (copy_of_outside _ _ (by omega)).trans (copy_of_outside _ _ (by omega))
      exact absurd (behind.symm.trans back) (by decide)
    · have left := bytes ((offset + count - 1) / 4096 * 4096 + count % 4096)
      rw [write_last apart _ _ _ (by omega) (by omega), if_pos (by omega), if_pos (by omega),
        copy_of_outside _ _ (by omega)] at left
      exact absurd left (by decide)

theorem whole_of_flat_read (pos : 1 ≤ count) (flat : Flat 1 offset count offset) :
    Whole count offset := by
  by_contra broken
  obtain ⟨apart, cases⟩ := not_whole broken
  -- twos on the page in front of the last one, and zeros elsewhere
  let pages : Pages := fun p _ => if p = (offset + count - 1) / 4096 - 1 then 2 else 0
  have found := (flat (fun _ => 9) (fun _ => 9) (fun _ => 9) (fun _ => 1) pages).1
  have zero : ∀ a, (tpwrite (fun _ => 9) (fun _ => 9) pages (fun _ => 1) 1 offset).2
      ((offset + count - 1) / 4096) a = 0 := by
    intro a
    show (readWriteHelper false 1 offset (pages, _)).1 _ a = 0
    rw [readWriteHelper_eq (by decide) (.inl (by omega)), if_pos (by omega)]
    exact (congrFun (update_of_ne apart.symm _ _) a).trans (if_neg (by omega))
  rcases cases with far | ⟨next, none, part⟩
  · have read := found (lastPhase count offset)
    have phase : offset + lastPhase count offset = ((offset + count - 1) / 4096 - 1) * 4096 := by
      unfold lastPhase
      omega
    rw [tpread_last apart _ _ (Int.le_refl _), if_pos (by omega), if_neg (by omega), phase] at read
    have two := read.trans (if_pos (by omega))
    by_cases some : 0 < count % 4096
    · rw [copy_of_inside _ _ (by omega) (by omega), zero] at two
      exact absurd two (by decide)
    · rw [copy_of_outside _ _ (by omega)] at two
      exact absurd two (by decide)
  · have phase : lastPhase count offset = 4096 - offset % 4096 := by
      rw [lastPhase, none]
      omega
    by_cases short : count < 4096
    · have past := found count
      rw [tpread_last apart _ _ (by omega), if_neg (by omega),
        copy_of_inside _ _ (by omega) (by omega), zero] at past
      exact absurd past (by decide)
    · have left := found (lastPhase count offset + count % 4096)
      rw [tpread_last apart _ _ (by omega), if_pos (by omega), if_neg (by omega),
        copy_of_outside _ _ (by omega)] at left
      exact absurd (left.trans (if_neg (by omega))) (by decide)

end Broken

/-- The ranges whose writes are seen by all reads of whole ranges as they should be, and whose
reads see all writes of whole ranges so, are exactly the whole ones. -/
theorem segment_file_flat (pos : 1 ≤ count) :
    (Whole count offset ↔ ∀ count' offset', 1 ≤ count' → Whole count' offset' →
      Flat count offset count' offset') ∧
    (Whole count offset ↔ ∀ count' offset', 1 ≤ count' → Whole count' offset' →
      Flat count' offset' count offset) := by
  refine ⟨⟨fun whole c o => flat_of_whole pos whole, fun flat => ?_⟩,
    ⟨fun whole c o pos' whole' => flat_of_whole pos' whole' pos whole, fun flat => ?_⟩⟩
  · exact whole_of_flat_write pos fun x => flat 1 x (by decide) (.inl (by omega))
  · exact whole_of_flat_read pos (flat 1 offset (by decide) (.inl (by omega)))

theorem segment_file_flat_next_page :
    tpread (tpwrite (fun _ => 9) (fun _ => 9) (fun _ _ => 0) (fun _ => 1) 5000 4096).2 (fun _ => 9)
      10 9090 5 = 1 := by
  have flat := (segment_file_flat (by decide)).1.mp (.inr (by decide) : Whole 5000 4096) 10 9090
    (by decide) (.inl (by decide))
  exact (flat (fun _ => 9) (fun _ => 9) (fun _ => 9) (fun _ => 1) fun _ _ => 0).1 5

/-- A range of 4096 bytes that does not begin with a page: none of its bytes on the second page is
written. -/
theorem segment_file_part_lost :
    tpread (tpwrite (fun _ => 9) (fun _ => 9) (fun _ _ => 0) (fun _ => 1) 4096 100).2 (fun _ => 9)
      1 4100 0 = 0 := by
  decide +kernel

end Stasis.SegmentFile
