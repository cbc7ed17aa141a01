import Mathlib
import Stasis.Library.Memory

/-!
Blobs.

A record that is too large for a page is stored on pages of its own, with as many bytes on each as
a page can hold, which is 4084. `touched` is no part of the program: it has the pages that calls
load. `startPage` is the page that TpageAllocMany returns; it takes the number of pages as an int.
-/
namespace Stasis.Blobs
open Function Memory List

structure Disk where
  pages : Int → Bytes
  touched : List Int

structure BlobRecord where
  offset : Int
  size : Nat

/-- The record of a blob and the number of pages that are allocated for it. -/
def stasisBlobAlloc (startPage : Int) (size : Nat) : BlobRecord × Int :=
  let pageCount := size / 4084 + if size % 4084 ≠ 0 then 1 else 0
  (⟨startPage, size⟩, (pageCount : Int).bmod (2 ^ 32))

/-- The chunks in the order in which they are copied, each with the number of its bytes. -/
def chunks (size : Nat) : Nat → Nat → List (Nat × Nat)
  | 0, _ => []
  | fuel + 1, chunk =>
    if (chunk + 1) * 4084 < size then (chunk, 4084) :: chunks size fuel (chunk + 1)
    else [(chunk, size % 4084)]

/-- TpageGet of the page, and memcpy to the buffer. -/
def readChunk (offset : Int) (s : Disk × Bytes) (c : Nat × Nat) : Disk × Bytes :=
  ({ s.1 with touched := s.1.touched ++ [offset + c.1] },
    copy s.2 (c.1 * 4084) (s.1.pages (offset + c.1)) 0 c.2)

/-- TpageSetRange of the page, with zeros behind the bytes of the chunk. -/
def writeChunk (offset : Int) (dat : Bytes) (d : Disk) (c : Nat × Nat) : Disk where
  pages := update d.pages (offset + c.1)
    (copy (d.pages (offset + c.1)) 0 (copy (fun _ => 0) 0 dat (c.1 * 4084) c.2) 0 4084)
  touched := d.touched ++ [offset + c.1]

def stasisBlobRead (rec : BlobRecord) (size : Nat) (d : Disk) (buf : Bytes) : Disk × Bytes :=
  (chunks size size 0).foldl (readChunk rec.offset) (d, buf)

def stasisBlobWrite (rec : BlobRecord) (size : Nat) (dat : Bytes) (d : Disk) : Disk :=
  (chunks size size 0).foldl (writeChunk rec.offset dat) d

section Chunks
variable (end' : last = (size - 1) / 4084) (offset : Int)

theorem read_touches (l : List (Nat × Nat)) (s : Disk × Bytes) :
    (l.foldl (readChunk offset) s).1 =
      ⟨s.1.pages, s.1.touched ++ l.map fun c => offset + c.1⟩ := by
  induction l generalizing s with
  | nil => simp
  | cons c l ih => simp [ih, readChunk]

theorem write_touches (dat : Bytes) (l : List (Nat × Nat)) (d : Disk) :
    (l.foldl (writeChunk offset dat) d).touched = d.touched ++ l.map fun c => offset + c.1 := by
  induction l generalizing d with
  | nil => simp
  | cons c l ih => simp [ih, writeChunk]

theorem readChunk_bytes (small : n ≤ 4084) (s : Disk × Bytes) (x : Int) :
    (readChunk offset s (chunk, n)).2 x = if chunk * 4084 ≤ x ∧ x < chunk * 4084 + n then
      s.1.pages (offset + x / 4084) (x % 4084) else s.2 x := by
  simp only [readChunk, copy]
  split
  · rw [show x / 4084 = chunk by omega, show x % 4084 = 0 + (x - chunk * 4084) by omega]
  · rfl

theorem writeChunk_bytes (dat : Bytes) (n : Nat) (d : Disk) (p a : Int) :
    (writeChunk offset dat d (chunk, n)).pages p a =
      if p = offset + chunk ∧ 0 ≤ a ∧ a < 4084 then
        if a < n then dat ((p - offset) * 4084 + a) else 0
      else d.pages p a := by
  simp only [writeChunk, update_apply]
  split
  · next here =>
    simp only [copy, here]
    grind
  · next other => rw [if_neg fun inside => other inside.1]

variable (le : chunk ≤ last) (enough : last < fuel + chunk)
include end' le enough

theorem chunks_fst : (chunks size fuel chunk).map Prod.fst = range' chunk (last + 1 - chunk) := by
  induction fuel generalizing chunk with
  | zero => omega
  | succ fuel ih =>
    rw [chunks]
    split
    · rw [map_cons, ih (by omega) (by omega),
        show last + 1 - chunk = last + 1 - (chunk + 1) + 1 by omega]
      rfl
    · rw [show last + 1 - chunk = 1 by omega]
      rfl

theorem read_bytes (s : Disk × Bytes) (x : Int) :
    ((chunks size fuel chunk).foldl (readChunk offset) s).2 x =
      if chunk * 4084 ≤ x ∧ x < last * 4084 + (size % 4084 : Nat) then
        s.1.pages (offset + x / 4084) (x % 4084) else s.2 x := by
  induction fuel generalizing chunk s with
  | zero => omega
  | succ fuel ih =>
    rw [chunks]
    split
    · rw [foldl_cons, ih (by omega) (by omega), readChunk_bytes offset (Nat.le_refl _)]
      simp only [readChunk]
      grind
    · obtain rfl : chunk = last := by omega
      exact readChunk_bytes offset (by omega) s x

theorem write_bytes (dat : Bytes) (d : Disk) (p a : Int) :
    ((chunks size fuel chunk).foldl (writeChunk offset dat) d).pages p a =
      if (offset + chunk ≤ p ∧ p ≤ offset + last) ∧ 0 ≤ a ∧ a < 4084 then
        if p < offset + last ∨ a < (size % 4084 : Nat) then dat ((p - offset) * 4084 + a) else 0
      else d.pages p a := by
  induction fuel generalizing chunk d with
  | zero => omega
  | succ fuel ih =>
    rw [chunks]
    split
    · rw [foldl_cons, ih (by omega) (by omega), writeChunk_bytes]
      grind
    · obtain rfl : chunk = last := by omega
      refine (writeChunk_bytes ..).trans ?_
      grind

end Chunks

/-- The pages that are allocated for a blob. -/
def ownPages (startPage : Int) (size : Nat) : List Int :=
  (range (stasisBlobAlloc startPage size).2.toNat).map fun chunk : Nat => startPage + chunk

/-- What is written to a blob and read again touches the pages of the blob only. All its bytes come
back exactly if the last page is not full, or if the buffer held the bytes of a full last page
before. -/
theorem blob_round_trip (startPage : Int) {size : Nat} (dat buf : Bytes) (d : Disk) (pos : 1 ≤ size)
    (fits : size ≤ 4084 * (2 ^ 31 - 1)) :
    let blob := (stasisBlobAlloc startPage size).1
    let after := stasisBlobWrite blob size dat d
    let read := stasisBlobRead blob size after buf
    after.touched = d.touched ++ ownPages startPage size ∧
      read.1 = ⟨after.pages, after.touched ++ ownPages startPage size⟩ ∧
      (∀ p a, after.pages p a ≠ d.pages p a → p ∈ ownPages startPage size ∧ 0 ≤ a ∧ a < 4084) ∧
      ((∀ x : Int, 0 ≤ x → x < size → read.2 x = dat x) ↔
        size % 4084 ≠ 0 ∨ ∀ x : Int, size - 4084 ≤ x → x < size → buf x = dat x) := by
  intro blob after read
  have number : size / 4084 + (if size % 4084 ≠ 0 then 1 else 0) = (size - 1) / 4084 + 1 := by
    split <;> omega
  have count : (stasisBlobAlloc startPage size).2.toNat = (size - 1) / 4084 + 1 := by
    rw [stasisBlobAlloc, number, Int.bmod_eq_of_le_mul_two (by omega) (by omega),
      Int.toNat_natCast]
  have enough : (size - 1) / 4084 < size + 0 := by omega
  have own : (chunks size size 0).map (fun c => startPage + (c.1 : Int)) =
      ownPages startPage size := by
    have chunk := chunks_fst rfl (Nat.zero_le _) enough
    rw [ownPages, count, range_eq_range', ← Nat.sub_zero (_ + 1), ← chunk, map_map]
    rfl
  have wrote := write_bytes rfl startPage (Nat.zero_le _) enough dat d
  have bytes : ∀ x : Int, 0 ≤ x → read.2 x =
      if x < ((size - 1) / 4084 : Nat) * 4084 + (size % 4084 : Nat) then dat x else buf x := by
    intro x low
    refine (read_bytes rfl startPage (Nat.zero_le _) enough _ x).trans ?_
    by_cases copied : x < ((size - 1) / 4084 : Nat) * 4084 + (size % 4084 : Nat)
    · rw [if_pos ⟨by omega, copied⟩, if_pos copied]
      refine (wrote _ _).trans ?_
      rw [if_pos (by omega), if_pos (by omega)]
      exact congrArg dat (by omega)
    · rw [if_neg fun inside => copied inside.2, if_neg copied]
  refine ⟨?_, ?_, fun p a changed => ?_, fun same => ?_, fun held x low high => ?_⟩
  · exact own ▸ write_touches startPage dat (chunks size size 0) d
  · exact own ▸ read_touches startPage (chunks size size 0) (after, buf)
  · by_contra outside
    refine changed ((wrote p a).trans (if_neg fun inside => outside ⟨?_, inside.2⟩))
    rw [ownPages, count, mem_map]
    exact ⟨(p - startPage).toNat, mem_range.mpr (by omega), by omega⟩
  · by_cases part : size % 4084 = 0
    · refine .inr fun x low high => ?_
      rw [← same x (by omega) high, bytes x (by omega), if_neg (by omega)]
    · exact .inl part
  · rw [bytes x low]
    split
    · rfl
    · exact (held.resolve_left (by omega)) x (by omega) high

theorem blob_round_trip_two_pages :
    (stasisBlobRead ⟨7, 5000⟩ 5000 (stasisBlobWrite ⟨7, 5000⟩ 5000 (fun _ => 1) ⟨fun _ _ => 0, []⟩)
      fun _ => 9).2 4999 = 1 := by
  have trip := blob_round_trip 7 (fun _ => 1) (fun _ => 9) ⟨fun _ _ => 0, []⟩
    (by decide : 1 ≤ 5000) (by decide)
  exact trip.2.2.2.mpr (.inl (by decide)) 4999 (by decide) (by decide)

/-- A blob that fills its page: none of its bytes is written or read. -/
theorem blob_page_lost :
    let after := stasisBlobWrite ⟨7, 4084⟩ 4084 (fun _ => 1) ⟨fun _ _ => 0, []⟩
    after.pages 7 0 = 0 ∧ (stasisBlobRead ⟨7, 4084⟩ 4084 after fun _ => 9).2 0 = 9 := by
  decide +kernel

end Stasis.Blobs
