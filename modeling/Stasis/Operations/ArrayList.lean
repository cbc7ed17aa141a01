import Mathlib
import Stasis.Page.Fixed

/-!
Array lists.

The records of an array list are on blocks of pages, each larger than the one before it by the
same factor. A header page has the parameters, and behind them the first page of each block. Page
ids have 64 bits, and an int has 32. `allocated` and `freed` are no part of the program: they are
the calls of TpageAllocMany and TpageDeallocMany. `pages` says which page each call of
TpageAllocMany returns. That the pages of a block are formatted is left out.
-/
namespace Stasis.ArrayList
open List
open Fixed (recordsPerPage)

abbrev PageId := BitVec 64

def firstDataPageOffset : Nat := 4

/-- The value as an int. -/
def toInt32 (x : Int) : Int := x.bmod (2 ^ 32)

/-- What `array_list_parameter_t` has for good. -/
structure Parameter where
  initialSize : Int
  multiplier : Int
  size : Int
deriving DecidableEq, Repr

structure Header where
  firstPage : PageId
  alp : Parameter
  maxOffset : Int
  blocks : Nat → PageId
  allocated : List (PageId × Int)
  freed : List PageId

/-- The variables of the loop over the blocks. -/
structure Search where
  thisHigh : Int
  lastHigh : Int
  pageRidSlot : Nat
  currentPageLength : Int

namespace Parameter

def start (alp : Parameter) (recPerPage : Int) : Search :=
  ⟨recPerPage * alp.initialSize, 0, 0, toInt32 alp.initialSize⟩

def next (alp : Parameter) (recPerPage : Int) (s : Search) : Search :=
  let currentPageLength := toInt32 (s.currentPageLength * alp.multiplier)
  ⟨s.thisHigh + toInt32 (recPerPage * currentPageLength), toInt32 s.thisHigh, s.pageRidSlot + 1,
    currentPageLength⟩

def search (alp : Parameter) (recPerPage offset : Int) : Nat → Search → Option Search
  | 0, _ => none
  | fuel + 1, s =>
    if offset ≥ s.thisHigh then alp.search recPerPage offset fuel (alp.next recPerPage s) else some s

/-- The block of an offset and the first slot of the block. A block has a slot at least, or the
loop does not end. -/
def getBlockContainingOffset (alp : Parameter) (offset : Int) : Option (Nat × Int) :=
  let offset := toInt32 offset
  (recordsPerPage alp.size).bind fun recPerPage =>
    (alp.search recPerPage offset (offset.toNat + 1) (alp.start recPerPage)).map fun s =>
      (s.pageRidSlot, s.lastHigh)

end Parameter

/-- A block, a page of the block and a slot of the page. -/
structure Place where
  block : Nat
  page : Int
  slot : Int
deriving DecidableEq, Repr

def Parameter.place (alp : Parameter) (offset : Int) : Option Place :=
  (recordsPerPage alp.size).bind fun recPerPage =>
    (alp.getBlockContainingOffset offset).map fun (pageRidSlot, lastHigh) =>
      let dataSlot := offset - lastHigh
      let blockPage := dataSlot.tdiv recPerPage
      ⟨pageRidSlot, blockPage, dataSlot - blockPage * recPerPage⟩

namespace Header

/-- The first page of the block is read as an int. -/
def dereferenceRecordid (a : Header) (offset : Int) : Option (PageId × Int) :=
  if a.maxOffset ≥ offset then
    (a.alp.place offset).map fun p =>
      (((a.blocks p.block).setWidth 32).signExtend 64 + BitVec.ofInt 64 p.page, p.slot)
  else none

/-- The header page has a slot for the block, and gets its first page. -/
def setBlock (a : Header) (i : Nat) (page : PageId) : Option Header :=
  if (recordsPerPage 8).any fun n => (i : Int) + firstDataPageOffset < n then
    some { a with blocks := fun j => if j = i then page else a.blocks j }
  else none

def extendBlock (pages : Nat → PageId) (a : Header) (i : Nat) : Option Header :=
  let newFirstPage := pages a.allocated.length
  let blockSize := a.alp.initialSize * a.alp.multiplier ^ i
  { a with allocated := a.allocated ++ [(newFirstPage, blockSize)] }.setBlock i newFirstPage

def lastCurrentBlock (a : Header) : Option Nat :=
  if a.maxOffset = -1 then some 0
  else (a.alp.getBlockContainingOffset a.maxOffset).map (·.1)

def tarrayListExtend (pages : Nat → PageId) (a : Header) (slots : Nat) : Option Header := do
  let lastCurrentBlock ← a.lastCurrentBlock
  let lastNewBlock ← (a.alp.getBlockContainingOffset (a.maxOffset + slots)).map (·.1)
  let a ← (range' (lastCurrentBlock + 1) (lastNewBlock - lastCurrentBlock)).foldlM
    (extendBlock pages) a
  some { a with maxOffset := a.maxOffset + slots }

/-- The pages of block 0 are behind the header page, and freed with it. -/
def tarrayListDealloc (a : Header) : Option Header :=
  (a.alp.getBlockContainingOffset a.maxOffset).map fun (last, _) =>
    { a with freed := a.freed ++ (range last).map (fun i => a.blocks (i + 1)) ++ [a.firstPage] }

end Header

section
variable (pages : Nat → PageId) (count multiplier recordSize : Int)

def tarrayListAlloc : Option Header :=
  if pages 0 = -1 then none
  else some {
    firstPage := pages 0
    alp := ⟨count, multiplier, recordSize⟩
    maxOffset := -1
    blocks := fun i => if i = 0 then pages 0 + 1 else 0
    allocated := [(pages 0, count + 1)]
    freed := [] }

/-- The array list after calls that extend it. -/
def extended (slots : List Nat) : Option Header :=
  (tarrayListAlloc pages count multiplier recordSize).bind fun a =>
    slots.foldlM (Header.tarrayListExtend pages) a

end

/-- The pages of a block, and the slots in front of it. -/
def Parameter.blockSize (alp : Parameter) (i : Nat) : Int := alp.initialSize * alp.multiplier ^ i

def Parameter.blockStart (alp : Parameter) (r : Int) : Nat → Int
  | 0 => 0
  | i + 1 => alp.blockStart r i + r * alp.blockSize i

/-- The last of `total` slots is in block `i`. -/
def Parameter.Ends (alp : Parameter) (r total : Int) (i : Nat) : Prop :=
  (i = 0 ∨ alp.blockStart r i < total) ∧ total ≤ alp.blockStart r (i + 1)

/-- The blocks up to `n` have as many slots as an int can count. -/
structure Parameter.Fits (alp : Parameter) (r : Int) (n : Nat) : Prop where
  count : 1 ≤ alp.initialSize
  multiplier : 1 ≤ alp.multiplier
  perPage : recordsPerPage alp.size = some r
  capacity : alp.blockStart r (n + 1) < 2 ^ 31

theorem toInt32_of_fits (low : -1 ≤ x) (high : x < 2 ^ 31) : toInt32 x = x :=
  Int.bmod_eq_of_le_mul_two (by omega) (by omega)

namespace Parameter
variable {alp : Parameter} {r : Int} {i : Nat}

theorem Ends.exists (holds : total ≤ alp.blockStart r (n + 1)) : ∃ i ≤ n, alp.Ends r total i := by
  induction n with
  | zero => exact ⟨0, Nat.le_refl 0, .inl rfl, holds⟩
  | succ n ih =>
    by_cases fits : total ≤ alp.blockStart r (n + 1)
    · obtain ⟨i, le, ends⟩ := ih fits
      exact ⟨i, Nat.le_succ_of_le le, ends⟩
    · exact ⟨n + 1, le_rfl, .inr (not_le.mp fits), holds⟩

namespace Fits
variable (h : alp.Fits r n)
include h

theorem nonneg : 0 ≤ r := by
  have perPage := h.perPage
  rw [recordsPerPage] at perPage
  split at perPage
  · cases perPage
  · cases perPage
    split
    · exact Int.le_refl 0
    · exact Int.ediv_nonneg (by decide) (by omega)

theorem size_pos (i : Nat) : 1 ≤ alp.blockSize i :=
  one_le_mul_of_one_le_of_one_le h.count (one_le_pow₀ h.multiplier)

theorem mono (le : i ≤ j) : alp.blockStart r i ≤ alp.blockStart r j := by
  refine monotone_nat_of_le_succ (fun k => ?_) le
  exact Int.le_add_of_nonneg_right (Int.mul_nonneg h.nonneg (le_of_lt (h.size_pos k)))

theorem bounds (le : i ≤ n + 1) : 0 ≤ alp.blockStart r i ∧ alp.blockStart r i < 2 ^ 31 :=
  ⟨h.mono (Nat.zero_le i), lt_of_le_of_lt (h.mono le) h.capacity⟩

theorem ends_mono (ends : alp.Ends r total i) (ends' : alp.Ends r total' j) (le : total ≤ total') :
    i ≤ j := by
  by_contra lt
  have start := h.mono (show j + 1 ≤ i by omega)
  have low := ends.1.resolve_left (by omega)
  have high := ends'.2
  omega

theorem ends_zero (ends : alp.Ends r 0 i) (le : i ≤ n) : i = 0 := by
  have low := (h.bounds (Nat.le_succ_of_le le)).1
  exact ends.1.resolve_right (not_lt.mpr low)

/-- A slot of the last block takes room there. -/
theorem rec_pos (ends : alp.Ends r total i) (pos : 0 < total) : 1 ≤ r := by
  have high := ends.2
  rw [blockStart] at high
  by_contra small
  obtain rfl : r = 0 := le_antisymm (by omega) h.nonneg
  rw [Int.zero_mul] at high
  rcases ends.1 with rfl | low
  · exact not_lt.mpr high pos
  · omega

theorem le_start (pos : 1 ≤ r) (i : Nat) : (i : Int) ≤ alp.blockStart r i := by
  induction i with
  | zero => exact Int.le_refl 0
  | succ i ih =>
    have slots := one_le_mul_of_one_le_of_one_le pos (h.size_pos i)
    rw [blockStart]
    omega

end Fits

/-- The search has come to a block. -/
def found (alp : Parameter) (r : Int) (i : Nat) : Search :=
  ⟨alp.blockStart r (i + 1), alp.blockStart r i, i, alp.blockSize i⟩

namespace Fits
variable (h : alp.Fits r n)
include h

theorem size_fits (pos : 1 ≤ r) (le : i ≤ n) : toInt32 (alp.blockSize i) = alp.blockSize i ∧
    toInt32 (r * alp.blockSize i) = r * alp.blockSize i := by
  have size := h.size_pos i
  have start := h.bounds (show i ≤ n + 1 by omega)
  have next := h.bounds (show i + 1 ≤ n + 1 by omega)
  rw [blockStart] at next
  have slots : alp.blockSize i ≤ r * alp.blockSize i := le_mul_of_one_le_left (by omega) pos
  exact ⟨toInt32_of_fits (by omega) (by omega), toInt32_of_fits (by omega) (by omega)⟩

theorem start_at (pos : 1 ≤ r) : alp.start r = alp.found r 0 := by
  have size := (h.size_fits pos (Nat.zero_le n)).1
  simp only [blockSize, pow_zero, Int.mul_one] at size
  simp only [start, found, blockStart, blockSize, pow_zero, Int.mul_one, Int.zero_add, size]

theorem next_at (pos : 1 ≤ r) (lt : i < n) : alp.next r (alp.found r i) = alp.found r (i + 1) := by
  obtain ⟨size, slots⟩ := h.size_fits pos (Nat.succ_le_of_lt lt)
  have start := h.bounds (show i + 1 ≤ n + 1 by omega)
  have grows : alp.blockSize i * alp.multiplier = alp.blockSize (i + 1) := by
    rw [blockSize, blockSize, pow_succ, Int.mul_assoc]
  simp only [next, found, grows, size, slots, toInt32_of_fits (by omega) start.2]
  rfl

theorem search_spec (pos : 1 ≤ r) (ends : alp.Ends r (offset + 1) i) (le : i ≤ n) (before : j ≤ i)
    (enough : i - j < fuel) : alp.search r offset fuel (alp.found r j) = some (alp.found r i) := by
  induction fuel generalizing j with
  | zero => omega
  | succ fuel ih =>
    rw [search]
    by_cases same : j = i
    · subst same
      exact if_neg (not_le.mpr ends.2)
    · have start := h.mono (show j + 1 ≤ i by omega)
      have low := ends.1.resolve_left (by omega)
      have more : offset ≥ (alp.found r j).thisHigh := by
        simp only [found]
        omega
      rw [if_pos more, h.next_at pos (by omega)]
      exact ih (by omega) (by omega)

/-- The block of the last of `total` slots. -/
theorem block_spec (ends : alp.Ends r total i) (le : i ≤ n) (nonneg : 0 ≤ total) :
    alp.getBlockContainingOffset (total - 1) = some (i, alp.blockStart r i) := by
  have start := h.bounds (show i + 1 ≤ n + 1 by omega)
  have high := ends.2
  rw [getBlockContainingOffset, toInt32_of_fits (by omega) (by omega), h.perPage, Option.bind_some]
  by_cases none : total = 0
  · subst none
    obtain rfl := h.ends_zero ends le
    have slots := Int.mul_nonneg h.nonneg (le_of_lt h.count)
    have stays : ¬0 - 1 ≥ (alp.start r).thisHigh := by
      simp only [Parameter.start]
      omega
    rw [search, if_neg stays]
    rfl
  · have pos := h.rec_pos ends (by omega)
    have far := h.le_start pos i
    have low := ends.1
    rw [h.start_at pos, h.search_spec pos (by rwa [Int.sub_add_cancel]) le (Nat.zero_le i)
      (by omega)]
    rfl

end Fits
end Parameter

/-- Where a block was allocated. -/
def firstPageOf (pages : Nat → PageId) (i : Nat) : PageId :=
  if i = 0 then pages 0 + 1 else pages i

/-- The blocks up to `last` are there, each allocated once. -/
structure Blocks (pages : Nat → PageId) (last : Nat) (a : Header) : Prop where
  firstPage : a.firstPage = pages 0
  blocks : ∀ i ≤ last, a.blocks i = firstPageOf pages i
  allocated : a.allocated = (pages 0, a.alp.initialSize + 1) ::
    (range last).map fun i => (pages (i + 1), a.alp.blockSize (i + 1))
  freed : a.freed = []

/-- An array list of `total` slots. -/
structure Holds (pages : Nat → PageId) (r : Int) (n : Nat) (total : Int) (last : Nat) (a : Header) :
    Prop where
  fits : a.alp.Fits r n
  blocks : Blocks pages last a
  maxOffset : a.maxOffset = total - 1
  nonneg : 0 ≤ total
  ends : a.alp.Ends r total last
  within : last ≤ n

theorem extendBlock_spec (h : Blocks pages last a) (room : last + 1 + firstDataPageOffset < 510) :
    ∃ b, a.extendBlock pages (last + 1) = some b ∧ (b.alp = a.alp ∧ b.maxOffset = a.maxOffset) ∧
      Blocks pages (last + 1) b := by
  have count : a.allocated.length = last + 1 := by
    rw [h.allocated, length_cons, length_map, length_range]
  have slot : ((recordsPerPage 8).any fun n => ((last + 1 : Nat) : Int) + firstDataPageOffset < n) =
      true := by
    rw [show recordsPerPage 8 = some 510 by decide, Option.any_some, decide_eq_true_eq]
    omega
  refine ⟨{ a with
      blocks := fun j => if j = last + 1 then pages a.allocated.length else a.blocks j
      allocated := a.allocated ++ [(pages a.allocated.length, _)] },
    by rw [Header.extendBlock, Header.setBlock, if_pos slot], ⟨rfl, rfl⟩, h.firstPage,
    fun i le => ?_, ?_, h.freed⟩
  · by_cases new : i = last + 1
    · simp only [if_pos new]
      rw [count, new]
      exact (if_neg (Nat.succ_ne_zero last)).symm
    · simp only [if_neg new]
      exact h.blocks i (by omega)
  · show a.allocated ++ [(pages a.allocated.length, _)] = _
    rw [count, h.allocated, range_succ, map_append, cons_append]
    rfl

theorem extendBlocks_spec (h : Blocks pages last a) (d : Nat)
    (room : last + d + firstDataPageOffset < 510) :
    ∃ b, (range' (last + 1) d).foldlM (Header.extendBlock pages) a = some b ∧
      (b.alp = a.alp ∧ b.maxOffset = a.maxOffset) ∧ Blocks pages (last + d) b := by
  induction d generalizing last a with
  | zero => exact ⟨a, rfl, ⟨rfl, rfl⟩, h⟩
  | succ d ih =>
    obtain ⟨mid, step, ⟨alp, offset⟩, blocks⟩ := extendBlock_spec h (by omega)
    obtain ⟨b, run, ⟨alp', offset'⟩, blocks'⟩ := ih blocks (by omega)
    refine ⟨b, ?_, ⟨alp'.trans alp, offset'.trans offset⟩,
      (show last + (d + 1) = last + 1 + d by omega) ▸ blocks'⟩
    rw [range'_succ, foldlM_cons, step]
    exact run

section
variable (h : Holds pages r n total last a) (room : n + firstDataPageOffset < 510)
include h room

theorem Holds.extend {slots : Nat} (holds : total + slots ≤ a.alp.blockStart r (n + 1)) :
    ∃ b last', a.tarrayListExtend pages slots = some b ∧ b.alp = a.alp ∧
      Holds pages r n (total + slots) last' b := by
  have fits := h.fits
  have nonneg := h.nonneg
  obtain ⟨last', within, ends⟩ := Parameter.Ends.exists holds
  have up := fits.ends_mono h.ends ends (by omega)
  obtain ⟨b, run, ⟨alp, offset⟩, blocks⟩ := extendBlocks_spec h.blocks (last' - last)
    (show last + (last' - last) + firstDataPageOffset < 510 by omega)
  have current : a.lastCurrentBlock = some last := by
    rw [Header.lastCurrentBlock, h.maxOffset]
    split
    · obtain rfl : total = 0 := by omega
      rw [fits.ends_zero h.ends h.within]
    · rw [fits.block_spec h.ends h.within nonneg]
      rfl
  have value : a.maxOffset + slots = total + slots - 1 := by
    rw [h.maxOffset]
    omega
  have new : (a.alp.getBlockContainingOffset (a.maxOffset + slots)).map (·.1) = some last' := by
    rw [value, fits.block_spec ends within (by omega)]
    rfl
  rw [Nat.add_sub_cancel' up] at blocks
  refine ⟨{ b with maxOffset := b.maxOffset + slots }, last', ?_, alp, alp ▸ fits,
    ⟨blocks.firstPage, blocks.blocks, blocks.allocated, blocks.freed⟩,
    offset ▸ value, by omega, alp ▸ ends, within⟩
  refine Option.bind_eq_some_iff.mpr ⟨last, current, ?_⟩
  refine Option.bind_eq_some_iff.mpr ⟨last', new, ?_⟩
  exact Option.bind_eq_some_iff.mpr ⟨_, run, rfl⟩

theorem Holds.extends {slots : List Nat} (holds : total + slots.sum ≤ a.alp.blockStart r (n + 1)) :
    ∃ b last', slots.foldlM (Header.tarrayListExtend pages) a = some b ∧ b.alp = a.alp ∧
      Holds pages r n (total + slots.sum) last' b := by
  induction slots generalizing a total last with
  | nil =>
    simp only [sum_nil, Nat.cast_zero, Int.add_zero]
    exact ⟨a, last, rfl, rfl, h⟩
  | cons s slots ih =>
    simp only [sum_cons, Nat.cast_add, ← Int.add_assoc] at holds ⊢
    have first : total + s ≤ a.alp.blockStart r (n + 1) := by omega
    obtain ⟨mid, last', step, alp, h'⟩ := h.extend room first
    obtain ⟨b, last'', run, alp', h''⟩ := ih h' (by rw [alp]; exact holds)
    refine ⟨b, last'', ?_, alp'.trans alp, h''⟩
    rw [foldlM_cons, step]
    exact run

end

/-- The page is one of the block, and the slot is on the page. -/
structure Place.Inside (alp : Parameter) (r : Int) (p : Place) : Prop where
  page : 0 ≤ p.page ∧ p.page < alp.blockSize p.block
  slot : 0 ≤ p.slot ∧ p.slot < r

namespace Place

def offset (alp : Parameter) (r : Int) (p : Place) : Int :=
  alp.blockStart r p.block + (p.page * r + p.slot)

/-- The slot behind one, on a block with so many pages. -/
def succ (r pages : Int) (p : Place) : Place :=
  if p.slot + 1 < r then { p with slot := p.slot + 1 }
  else if p.page + 1 < pages then ⟨p.block, p.page + 1, 0⟩
  else ⟨p.block + 1, 0, 0⟩

section Inside
variable {alp : Parameter} {p : Place} (h : alp.Fits r n)
include h

section
variable (inside : p.Inside alp r)
include inside

theorem Inside.bounds : alp.blockStart r p.block ≤ p.offset alp r ∧
    p.offset alp r < alp.blockStart r (p.block + 1) := by
  obtain ⟨⟨low, high⟩, low', high'⟩ := inside
  have front := Int.mul_nonneg low h.nonneg
  have behind := Int.mul_le_mul_of_nonneg_right (Int.add_one_le_of_lt high) h.nonneg
  rw [Int.add_mul, Int.one_mul, Int.mul_comm (alp.blockSize p.block)] at behind
  rw [offset, Parameter.blockStart]
  omega

theorem Inside.block_le (lt : p.offset alp r < alp.blockStart r (i + 1)) : p.block ≤ i := by
  by_contra above
  have start := h.mono (show i + 1 ≤ p.block by omega)
  have low := (inside.bounds h).1
  omega

theorem Inside.block (le : p.block ≤ n) :
    alp.getBlockContainingOffset (p.offset alp r) = some (p.block, alp.blockStart r p.block) := by
  obtain ⟨low, high⟩ := inside.bounds h
  have start := (h.bounds (Nat.le_succ_of_le le)).1
  have ends : alp.Ends r (p.offset alp r + 1) p.block :=
    ⟨.inr (Int.lt_add_one_of_le low), Int.add_one_le_of_lt high⟩
  have block := h.block_spec ends le (by omega)
  rwa [Int.add_sub_cancel] at block

theorem Inside.place (le : p.block ≤ n) : alp.place (p.offset alp r) = some p := by
  have block := inside.block h le
  obtain ⟨⟨low, _⟩, low', high'⟩ := inside
  have data : p.offset alp r - alp.blockStart r p.block = p.slot + p.page * r := by
    rw [offset]
    omega
  have page : (p.slot + p.page * r).tdiv r = p.page := by
    rw [Int.tdiv_eq_ediv_of_nonneg (Int.add_nonneg low' (Int.mul_nonneg low h.nonneg)),
      Int.add_mul_ediv_right _ _ (by omega), Int.ediv_eq_zero_of_lt low' high', Int.zero_add]
  rw [Parameter.place, h.perPage, Option.bind_some, block, Option.map_some]
  simp only [data, page, Int.add_sub_cancel]

end

theorem Inside.exists (nonneg : 0 ≤ o) (lt : o < alp.blockStart r (n + 1)) :
    ∃ p : Place, p.Inside alp r ∧ p.block ≤ n ∧ p.offset alp r = o := by
  obtain ⟨i, le, ends⟩ := Parameter.Ends.exists (Int.add_one_le_of_lt lt)
  have pos : 0 < r := h.rec_pos ends (by omega)
  have low : alp.blockStart r i ≤ o := by
    rcases ends.1 with rfl | low
    · exact nonneg
    · omega
  have high := ends.2
  rw [Parameter.blockStart, Int.mul_comm] at high
  have split := Int.ediv_mul_add_emod (o - alp.blockStart r i) r
  have fits : o - alp.blockStart r i < alp.blockSize i * r := by omega
  refine ⟨⟨i, (o - alp.blockStart r i) / r, (o - alp.blockStart r i) % r⟩,
    ⟨⟨Int.ediv_nonneg (by omega) h.nonneg, Int.ediv_lt_of_lt_mul pos fits⟩,
      Int.emod_nonneg _ (by omega), Int.emod_lt_of_pos _ pos⟩, le, ?_⟩
  simp only [offset, split]
  omega

/-- The slot behind is on the same page, on the next one or on the next block. -/
theorem Inside.succ (inside : p.Inside alp r) :
    (p.succ r (alp.blockSize p.block)).Inside alp r ∧
      (p.succ r (alp.blockSize p.block)).offset alp r = p.offset alp r + 1 := by
  obtain ⟨⟨low, high⟩, low', high'⟩ := inside
  rw [Place.succ]
  split
  · next same => exact ⟨⟨⟨low, high⟩, Int.le_add_one low', same⟩, by simp only [offset]; omega⟩
  · have last : p.slot = r - 1 := by omega
    have pos : 0 < r := by omega
    split
    · next more =>
      refine ⟨⟨⟨Int.le_add_one low, more⟩, Int.le_refl 0, pos⟩, ?_⟩
      simp only [offset, last, Int.add_mul]
      omega
    · have page : p.page = alp.blockSize p.block - 1 := by omega
      refine ⟨⟨⟨Int.le_refl 0, h.size_pos _⟩, Int.le_refl 0, pos⟩, ?_⟩
      simp only [offset, last, page, Parameter.blockStart, Int.sub_mul, Int.mul_comm r]
      omega

end Inside
end Place

theorem signExtend_setWidth_iff (page : PageId) :
    (page.setWidth 32).signExtend 64 = page ↔ -2 ^ 31 ≤ page.toInt ∧ page.toInt < 2 ^ 31 := by
  rw [← BitVec.toInt_inj, BitVec.toInt_signExtend_of_le (by decide), BitVec.toInt_setWidth,
    BitVec.toInt_eq_toNat_bmod page]
  simp only [Int.bmod]
  omega

section Lists
variable {alp : Parameter} {o : Int} {slots : List Nat}

theorem extended_spec (page : pages 0 ≠ -1) (fits : alp.Fits r n)
    (holds : slots.sum ≤ alp.blockStart r (n + 1)) (room : n + firstDataPageOffset < 510) :
    ∃ a last, extended pages alp.initialSize alp.multiplier alp.size slots = some a ∧ a.alp = alp ∧
      Holds pages r n slots.sum last a := by
  have start : Holds pages r n 0 0
      ⟨pages 0, alp, -1, fun i => if i = 0 then pages 0 + 1 else 0, [(pages 0, alp.initialSize + 1)],
        []⟩ := by
    refine ⟨fits, ⟨rfl, fun i le => ?_, rfl, rfl⟩, rfl, Int.le_refl 0, ⟨.inl rfl, ?_⟩, Nat.zero_le n⟩
    · obtain rfl := Nat.le_zero.mp le
      rfl
    · exact fits.mono (Nat.zero_le 1)
  obtain ⟨a, last, run, same, h⟩ := start.extends room (by rwa [Int.zero_add])
  rw [Int.zero_add] at h
  refine ⟨a, last, ?_, same, h⟩
  rw [extended, tarrayListAlloc, if_neg page]
  exact run

theorem Holds.place (h : Holds pages r n slots.sum last a) (nonneg : 0 ≤ o) (lt : o < slots.sum) :
    ∃ p : Place, p.Inside a.alp r ∧ p.block ≤ last ∧ p.offset a.alp r = o := by
  have high := h.ends.2
  have start := h.fits.mono (show last + 1 ≤ n + 1 from Nat.succ_le_succ h.within)
  obtain ⟨p, inside, _, eq⟩ := Place.Inside.exists h.fits nonneg (by omega)
  exact ⟨p, inside, inside.block_le h.fits (by omega), eq⟩

theorem Holds.dealloc (h : Holds pages r n total last a) :
    ∃ b, a.tarrayListDealloc = some b ∧ b.freed.Perm (a.allocated.map (·.1)) := by
  have block := h.fits.block_spec h.ends h.within h.nonneg
  rw [← h.maxOffset] at block
  refine ⟨_, by rw [Header.tarrayListDealloc, block]; rfl, ?_⟩
  have blocks : (range last).map (fun i => a.blocks (i + 1)) =
      (range last).map fun i => pages (i + 1) := by
    refine map_congr_left fun i mem => ?_
    rw [h.blocks.blocks (i + 1) (mem_range.mp mem)]
    exact if_neg (Nat.succ_ne_zero i)
  simp only [h.blocks.freed, h.blocks.firstPage, h.blocks.allocated, blocks, nil_append, map_cons,
    map_map]
  exact perm_append_comm

end Lists

/-- The blocks up to the last one that is needed are allocated, and the offsets run through their
slots. -/
theorem array_list_addressing (pages : Nat → PageId) (alp : Parameter) {r : Int} {n : Nat}
    (slots : List Nat) (page : pages 0 ≠ -1) (fits : alp.Fits r n)
    (holds : slots.sum ≤ alp.blockStart r (n + 1)) (room : n + firstDataPageOffset < 510) :
    ∃ a last, extended pages alp.initialSize alp.multiplier alp.size slots = some a ∧ a.alp = alp ∧
      a.maxOffset = slots.sum - 1 ∧ alp.Ends r slots.sum last ∧
      a.allocated = (pages 0, alp.initialSize + 1) ::
        (range last).map (fun i => (pages (i + 1), alp.initialSize * alp.multiplier ^ (i + 1))) ∧
      (0 < slots.sum → alp.place 0 = some ⟨0, 0, 0⟩) ∧
      (∀ o : Int, 0 ≤ o → o < slots.sum → ∃ p : Place, alp.place o = some p ∧ p.Inside alp r ∧
        p.block ≤ last ∧ alp.getBlockContainingOffset o = some (p.block, alp.blockStart r p.block) ∧
        (o + 1 < slots.sum → alp.place (o + 1) = some (p.succ r (alp.blockSize p.block)))) ∧
      (∀ o o' : Int, 0 ≤ o → o < slots.sum → 0 ≤ o' → o' < slots.sum → alp.place o = alp.place o' →
        o = o') ∧
      ∃ b, a.tarrayListDealloc = some b ∧ b.freed.Perm (a.allocated.map (·.1)) := by
  obtain ⟨a, last, run, rfl, h⟩ := extended_spec page fits holds room
  refine ⟨a, last, run, rfl, h.maxOffset, h.ends, h.blocks.allocated, fun some => ?_,
    fun o low high => ?_, fun o o' low high low' high' same => ?_, h.dealloc⟩
  · obtain ⟨p, inside, _⟩ := h.place (Int.le_refl 0) (Int.natCast_pos.mpr some)
    have first : (⟨0, 0, 0⟩ : Place).Inside a.alp r :=
      ⟨⟨Int.le_refl 0, fits.size_pos 0⟩, Int.le_refl 0, lt_of_le_of_lt inside.slot.1 inside.slot.2⟩
    have place := first.place fits (Nat.zero_le n)
    rwa [Place.offset, Int.zero_mul] at place
  · obtain ⟨p, inside, le, rfl⟩ := h.place low high
    have within := le_trans le h.within
    refine ⟨p, inside.place fits within, inside, le, inside.block fits within, fun more => ?_⟩
    obtain ⟨next, eq⟩ := inside.succ fits
    rw [← eq] at more ⊢
    refine next.place fits (next.block_le fits (lt_of_lt_of_le more holds))
  · obtain ⟨p, inside, le, rfl⟩ := h.place low high
    obtain ⟨p', inside', le', rfl⟩ := h.place low' high'
    rw [inside.place fits (le_trans le h.within),
      inside'.place fits (le_trans le' h.within)] at same
    rw [Option.some.inj same]

/-- The page of a record is right exactly if the first page of its block fits in an int. -/
theorem array_list_page_in_block (pages : Nat → PageId) (alp : Parameter) {r o : Int} {n : Nat}
    (slots : List Nat) (page : pages 0 ≠ -1) (fits : alp.Fits r n)
    (holds : slots.sum ≤ alp.blockStart r (n + 1)) (room : n + firstDataPageOffset < 510)
    (low : 0 ≤ o) (high : o < slots.sum) :
    ∃ a p, extended pages alp.initialSize alp.multiplier alp.size slots = some a ∧
      alp.place o = some p ∧ p.Inside alp r ∧
      (a.dereferenceRecordid o =
          some (firstPageOf pages p.block + BitVec.ofInt 64 p.page, p.slot) ↔
        -2 ^ 31 ≤ (firstPageOf pages p.block).toInt ∧
          (firstPageOf pages p.block).toInt < 2 ^ 31) := by
  obtain ⟨a, last, run, rfl, h⟩ := extended_spec page fits holds room
  obtain ⟨p, inside, le, rfl⟩ := h.place low high
  have place := inside.place fits (le_trans le h.within)
  refine ⟨a, p, run, place, inside, ?_⟩
  rw [Header.dereferenceRecordid, if_pos (by have := h.maxOffset; omega), place, Option.map_some,
    h.blocks.blocks p.block le, ← signExtend_setWidth_iff]
  simp only [Option.some.injEq, Prod.mk.injEq, and_true, BitVec.add_left_inj]

/-- Record of 4000 bytes, one to a page. -/
def onePerPage : Parameter := ⟨1, 1, 4000⟩

theorem onePerPage_fits : onePerPage.Fits 1 1 :=
  ⟨by decide, by decide, by decide, by decide⟩

theorem array_list_addressing_two : ∃ a, extended (fun i => 10 * i) 1 1 4000 [1, 0, 1] = some a ∧
    a.maxOffset = 1 := by
  obtain ⟨a, _, run, _, length, _⟩ := array_list_addressing (fun i => 10 * i) onePerPage [1, 0, 1]
    (by decide) onePerPage_fits (by decide) (by decide)
  exact ⟨a, run, length⟩

theorem array_list_page_in_block_two : ∃ a, extended (fun i => 10 * i) 1 1 4000 [2] = some a ∧
    a.dereferenceRecordid 1 = some (10, 0) := by
  obtain ⟨a, p, run, place, _, page⟩ := array_list_page_in_block (o := 1) (fun i => 10 * i)
    onePerPage [2] (by decide) onePerPage_fits (by decide) (by decide) (by decide) (by decide)
  cases (show onePerPage.place 1 = some ⟨1, 0, 0⟩ by decide).symm.trans place
  exact ⟨a, run, page.mpr (by decide)⟩

/-- The second block is at a page whose number does not fit in an int. -/
theorem array_list_page_truncated :
    ∃ a, extended (fun i => if i = 0 then 10 else 2 ^ 31) 1 1 4000 [2] = some a ∧
      a.allocated = [(10, 2), (2 ^ 31, 1)] ∧ onePerPage.place 1 = some ⟨1, 0, 0⟩ ∧
      a.dereferenceRecordid 1 = some (BitVec.ofInt 64 (-2 ^ 31), 0) := by
  decide +kernel

end Stasis.ArrayList
