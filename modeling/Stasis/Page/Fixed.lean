import Stasis.Page.Layout
import Stasis.Library.Fallible

/-!
Pages with records of a fixed size.

The record size and the number of records are the two cells in front of the page header. A record
is found by multiplying the record size with its slot. A function gives `none` where an assertion
of the source fails, or where it divides by zero.
-/
namespace Stasis.Fixed
open Memory
open Slotted (int16FromEnd setInt16FromEnd)

def fixedPage : Int := 5

structure Page where
  id : Int
  pageType : Int
  memaddr : Bytes

structure Recordid where
  page : Int
  slot : Int
  size : Int
deriving DecidableEq, Repr

def nullrid : Recordid := ⟨0, 0, -1⟩

abbrev recordsize (p : Bytes) : Int := int16FromEnd p 1
abbrev recordcount (p : Bytes) : Int := int16FromEnd p 2

/-- The address of a record. -/
def recordPtr (p : Bytes) (n : Int) : Int := recordsize p * n

def nextSlot (p : Bytes) (slot : Int) : Int :=
  if recordcount p > slot + 1 then slot + 1 else -1

def lastSlot (p : Bytes) : Int := -recordcount p - 1

/-- A negative size is a large unsigned one. -/
def recordsPerPage (size : Int) : Option Int :=
  if size = 0 then none
  else some (if size < 0 then 0 else (usableSizeOfPage - 2 * 2) / size)

def initializePageRaw (size count : Int) : Option Bytes :=
  let p := setInt16FromEnd (fun _ => 0) 1 size
  (recordsPerPage size).bind fun perPage =>
    if count ≤ perPage then some (setInt16FromEnd p 2 count) else none

def getType (p : Bytes) (slot : Int) : Int :=
  if slot < recordcount p then
    if recordsize p > 0 then normalSlot else recordsize p
  else invalidSlot

def getLength (p : Bytes) (slot : Int) : Option Int :=
  if slot > recordcount p then some invalidSlot else recordTypeToSize (recordsize p)

def preAlloc (p : Bytes) : Option Int :=
  (recordsPerPage (recordsize p)).map fun perPage =>
    if perPage > recordcount p then recordcount p else -1

def postAlloc (p : Bytes) (n : Int) : Option Bytes :=
  if recordcount p = n then some (setInt16FromEnd p 2 (recordcount p + 1)) else none

def free (p : Bytes) (n : Int) : Bytes :=
  if recordsize p = n + 1 then setInt16FromEnd p 1 (recordsize p - 1) else p

namespace Page

section
variable (page : Page) (rid : Recordid)

/-- `stasis_page_fixed_checkRid` -/
def checkRid : Bool :=
  page.pageType ≠ 0 ∧ page.id = rid.page ∧ recordsize page.memaddr = rid.size ∧
    (recordsPerPage rid.size).any fun perPage => perPage > rid.slot

/-- The address that the record is read from. -/
def read : Option Int :=
  if page.checkRid rid ∧ rid.slot < recordcount page.memaddr then
    some (recordPtr page.memaddr rid.slot)
  else none

/-- The address that the record is written to. -/
def write : Option Int := page.read rid

def getLengthRecord : Option Int :=
  if page.pageType ≠ 0 then getLength page.memaddr rid.slot else none

def getRecordType : Int := getType page.memaddr rid.slot

end

section
variable (page : Page)

def lastRecord : Recordid :=
  ⟨page.id, -lastSlot page.memaddr, recordsize page.memaddr⟩

def nextRecord (rid : Recordid) : Option Recordid :=
  let slot := nextSlot page.memaddr rid.slot
  if slot = invalidSlot then some nullrid
  else if rid.page = page.id then
    some { rid with size := recordsize page.memaddr, slot := slot }
  else none

def firstRecord : Option Recordid :=
  page.nextRecord ⟨page.id, invalidSlot, recordsize page.memaddr⟩

def preAllocRecord : Option Recordid :=
  (preAlloc page.memaddr).map fun slot =>
    if slot = -1 then nullrid else ⟨page.id, slot, recordsize page.memaddr⟩

def postAllocRecord (rid : Recordid) : Option Page :=
  if recordsize page.memaddr = rid.size then
    (postAlloc page.memaddr rid.slot).map fun p => { page with memaddr := p }
  else none

def freeRecord (rid : Recordid) : Page :=
  { page with memaddr := free page.memaddr rid.slot }

end

end Page

/-- A fixed page. -/
structure Formatted (page : Page) : Prop where
  type : page.pageType = fixedPage
  size : 1 ≤ recordsize page.memaddr

section Interface
variable {page : Page} {n : Int}

/-- The records that a client comes to from the first one. -/
inductive Enumerated (page : Page) : Recordid → Prop
  | first {rid : Recordid} (found : page.firstRecord = some rid) (some : rid ≠ nullrid) :
      Enumerated page rid
  | next {rid rid' : Recordid} (before : Enumerated page rid)
      (found : page.nextRecord rid = some rid') (some : rid' ≠ nullrid) : Enumerated page rid'

/-- The record identifier of a slot. -/
def Page.ridOf (page : Page) (n : Int) : Recordid := ⟨page.id, n, recordsize page.memaddr⟩

theorem ridOf_ne_null (h : Formatted page) (n : Int) : page.ridOf n ≠ nullrid := by
  intro same
  have size := congrArg Recordid.size same
  have pos := h.size
  simp only [Page.ridOf, nullrid] at size
  omega

theorem nextRecord_ridOf (page : Page) (nonneg : -1 ≤ n) :
    page.nextRecord (page.ridOf n) =
      some (if n + 1 < recordcount page.memaddr then page.ridOf (n + 1) else nullrid) := by
  unfold Page.nextRecord nextSlot Page.ridOf
  by_cases more : n + 1 < recordcount page.memaddr
  · have valid : n + 1 ≠ invalidSlot := by
      simp only [invalidSlot]
      omega
    simp [more, valid]
  · simp [more, invalidSlot]

theorem enumerated_iff (h : Formatted page) (nonneg : 0 ≤ n) :
    Enumerated page (page.ridOf n) ↔ n < recordcount page.memaddr := by
  constructor
  · intro enumerated
    have slots : ∀ rid, Enumerated page rid →
        ∃ m, 0 ≤ m ∧ m < recordcount page.memaddr ∧ rid = page.ridOf m := by
      intro rid enumerated
      induction enumerated with
      | first found some =>
        have step : page.firstRecord = _ := nextRecord_ridOf page (Int.le_refl (-1))
        rw [found] at step
        split at step
        · next more => exact ⟨-1 + 1, by decide, more, Option.some.inj step⟩
        · exact absurd (Option.some.inj step) some
      | next _ found some ih =>
        obtain ⟨m, low, _, rfl⟩ := ih
        have step := nextRecord_ridOf page (n := m) (by omega)
        rw [found] at step
        split at step
        · next more => exact ⟨m + 1, by omega, more, Option.some.inj step⟩
        · exact absurd (Option.some.inj step) some
    obtain ⟨m, _, high, same⟩ := slots _ enumerated
    have slot : n = m := congrArg Recordid.slot same
    omega
  · obtain ⟨k, rfl⟩ := Int.eq_ofNat_of_zero_le nonneg
    intro high
    induction k with
    | zero =>
      refine .first ?_ (ridOf_ne_null h _)
      refine (nextRecord_ridOf page (Int.le_refl (-1))).trans ?_
      rw [if_pos (by omega)]
      rfl
    | succ k ih =>
      refine .next (ih (by omega) (by omega)) ?_ (ridOf_ne_null h _)
      rw [nextRecord_ridOf page (by omega), if_pos (by omega)]
      rfl

theorem getType_iff (h : Formatted page) :
    page.getRecordType (page.ridOf n) ≠ invalidSlot ↔ n < recordcount page.memaddr := by
  have pos := h.size
  unfold Page.getRecordType getType Page.ridOf
  by_cases live : n < recordcount page.memaddr
  · rw [if_pos live, if_pos (by omega)]
    exact ⟨fun _ => live, fun _ => by decide⟩
  · rw [if_neg live]
    exact ⟨fun bad => absurd rfl bad, fun less => absurd less live⟩

theorem getLength_iff (h : Formatted page) :
    page.getLengthRecord (page.ridOf n) ≠ some invalidSlot ↔ n ≤ recordcount page.memaddr := by
  have pos := h.size
  have typed : page.pageType ≠ 0 := by
    rw [h.type]
    decide
  unfold Page.getLengthRecord getLength Page.ridOf
  rw [if_pos typed]
  by_cases behind : n > recordcount page.memaddr
  · rw [if_pos behind]
    exact ⟨fun bad => absurd rfl bad, fun less => absurd less (by omega)⟩
  · rw [if_neg behind, recordTypeToSize, if_pos (by omega)]
    refine ⟨fun _ => by omega, fun _ bad => ?_⟩
    have same := Option.some.inj bad
    simp only [invalidSlot] at same
    omega

/-- The enumeration and the type agree on every slot, and the length agrees with them exactly on
the slots other than the one behind the last record. What is returned as the last record is two
slots behind it. -/
theorem fixed_record_interface_agrees (h : Formatted page) :
    (∀ n, 0 ≤ n →
      (Enumerated page (page.ridOf n) ↔ page.getRecordType (page.ridOf n) ≠ invalidSlot) ∧
      ((page.getRecordType (page.ridOf n) ≠ invalidSlot ↔
        page.getLengthRecord (page.ridOf n) ≠ some invalidSlot) ↔
          n ≠ recordcount page.memaddr)) ∧
      page.lastRecord = page.ridOf (recordcount page.memaddr + 1) ∧
      (0 < recordcount page.memaddr → ¬ Enumerated page page.lastRecord) := by
  have last : page.lastRecord = page.ridOf (recordcount page.memaddr + 1) := by
    unfold Page.lastRecord lastSlot Page.ridOf
    congr 1
    omega
  refine ⟨fun n nonneg => ⟨?_, ?_⟩, last, fun pos => ?_⟩
  · rw [enumerated_iff h nonneg, getType_iff h]
  · rw [getType_iff h, getLength_iff h]
    omega
  · rw [last, enumerated_iff h (by omega)]
    omega

/-- A page with one record of eight bytes. -/
def onePage : Page := ⟨7, fixedPage, (initializePageRaw 8 1).getD fun _ => 0⟩

theorem onePage_formatted : Formatted onePage := ⟨rfl, by decide +kernel⟩

theorem fixed_record_interface_agrees_first :
    Enumerated onePage (onePage.ridOf 0) ∧
      onePage.getRecordType (onePage.ridOf 0) ≠ invalidSlot ∧
        onePage.getLengthRecord (onePage.ridOf 0) ≠ some invalidSlot := by
  obtain ⟨enumerated, length⟩ := (fixed_record_interface_agrees onePage_formatted).1 0 (by decide)
  have typed : onePage.getRecordType (onePage.ridOf 0) ≠ invalidSlot := by decide +kernel
  exact ⟨enumerated.mpr typed, typed, (length.mpr (by decide +kernel)).mp typed⟩

/-- Slot 1 has a length, though it is not enumerated and has no type. The last record is said to be
in slot 2. -/
theorem length_behind_last_record :
    Formatted onePage ∧ recordcount onePage.memaddr = 1 ∧
      ¬ Enumerated onePage (onePage.ridOf 1) ∧
      onePage.getRecordType (onePage.ridOf 1) = invalidSlot ∧
      onePage.getLengthRecord (onePage.ridOf 1) = some 8 ∧ onePage.lastRecord.slot = 2 ∧
      ¬ Enumerated onePage (onePage.ridOf 2) := by
  have count : recordcount onePage.memaddr = 1 := by decide +kernel
  refine ⟨onePage_formatted, count, ?_, by decide +kernel, by decide +kernel, by decide +kernel, ?_⟩
  · rw [enumerated_iff onePage_formatted (by decide), count]
    decide
  · rw [enumerated_iff onePage_formatted (by decide), count]
    decide

end Interface

/-- The bytes that the record pointer of a slot points to. -/
def readRecord (p : Bytes) (n : Int) : List UInt8 :=
  (List.range (recordsize p).toNat).map fun j : Nat => p (recordPtr p n + j)

def Live (page : Page) (n : Int) : Prop := 0 ≤ n ∧ n < recordcount page.memaddr

inductive Op where
  | alloc
  | write (n : Int) (dat : List UInt8)
  | free (n : Int)

namespace Op

def run (page : Page) : Op → Option Page
  | .alloc => page.preAllocRecord.bind fun rid =>
    if rid = nullrid then some page else page.postAllocRecord rid
  | .write n dat => (page.write (page.ridOf n)).map fun a =>
    { page with memaddr := storeList page.memaddr a dat }
  | .free n => some (page.freeRecord (page.ridOf n))

def Allowed (page : Page) : Op → Prop
  | .alloc => True
  | .write n dat => Live page n ∧ dat.length = recordsize page.memaddr
  | .free n => Live page n

/-- A slot that is freed is not the one below the record size. -/
def Spares (page : Page) : Op → Prop
  | .free n => n + 1 ≠ recordsize page.memaddr
  | _ => True

/-- The slot whose record may change. -/
def slot : Op → Option Int
  | .alloc => none
  | .write n _ => some n
  | .free n => some n

end Op

structure Bounded (page : Page) : Prop extends Formatted page where
  nonneg : 0 ≤ recordcount page.memaddr
  fits : ∃ perPage, recordsPerPage (recordsize page.memaddr) = some perPage ∧
    recordcount page.memaddr ≤ perPage

/-- What an operation leaves of the page. -/
structure Keeps (page after : Page) (changed : Option Int) : Prop where
  bounded : Bounded after
  size : recordsize after.memaddr = recordsize page.memaddr
  records : ∀ m, Live page m → changed ≠ some m →
    Live after m ∧ readRecord after.memaddr m = readRecord page.memaddr m

section Runs
variable {page after : Page}

theorem recordsPerPage_eq (h : Formatted page) : recordsPerPage (recordsize page.memaddr) =
    some (4080 / recordsize page.memaddr) := by
  have pos := h.size
  rw [recordsPerPage, if_neg (by omega), if_neg (by omega)]
  rfl

theorem Bounded.end_le (h : Bounded page) (live : Live page n) :
    0 ≤ recordPtr page.memaddr n ∧
      recordPtr page.memaddr n + recordsize page.memaddr ≤ 4080 := by
  obtain ⟨perPage, eq, le⟩ := h.fits
  have pos := h.size
  rw [recordsPerPage_eq h.toFormatted] at eq
  have total : recordsize page.memaddr * perPage ≤ 4080 := by
    rw [← Option.some.inj eq]
    exact Int.mul_ediv_self_le (by omega)
  have high : n + 1 ≤ perPage := by
    have := live.2
    omega
  have scaled := Int.mul_le_mul_of_nonneg_left high (show 0 ≤ recordsize page.memaddr by omega)
  rw [Int.mul_add, Int.mul_one] at scaled
  exact ⟨Int.mul_nonneg (by omega) live.1, by unfold recordPtr; omega⟩

theorem readRecord_congr (size : recordsize p' = recordsize p)
    (same : ∀ a, recordPtr p n ≤ a → a < recordPtr p n + recordsize p → p' a = p a) :
    readRecord p' n = readRecord p n := by
  have start : recordPtr p' n = recordPtr p n := by rw [recordPtr, recordPtr, size]
  rw [readRecord, readRecord, size, start]
  refine List.map_congr_left fun j mem => ?_
  have lt := List.mem_range.mp mem
  exact same _ (by omega) (by omega)

theorem recordPtr_add_le (size : 1 ≤ recordsize p) (lt : i < j) :
    recordPtr p i + recordsize p ≤ recordPtr p j := by
  have scaled := Int.mul_le_mul_of_nonneg_left (show i + 1 ≤ j from lt)
    (show 0 ≤ recordsize p by omega)
  rwa [Int.mul_add, Int.mul_one] at scaled

section
variable (h : Bounded page)
include h

theorem Bounded.congr (size : recordsize p = recordsize page.memaddr)
    (count : recordcount p = recordcount page.memaddr) : Bounded { page with memaddr := p } := by
  obtain ⟨perPage, eq, le⟩ := h.fits
  refine ⟨⟨h.type, ?_⟩, ?_, perPage, ?_, ?_⟩
  · show 1 ≤ recordsize p
    rw [size]
    exact h.size
  · show 0 ≤ recordcount p
    rw [count]
    exact h.nonneg
  · show recordsPerPage (recordsize p) = some perPage
    rw [size, eq]
  · show recordcount p ≤ perPage
    rw [count]
    exact le

theorem Bounded.recount (count : Int) (le : recordcount page.memaddr ≤ count)
    (fits : count ≤ 4080 / recordsize page.memaddr) :
    Keeps page { page with memaddr := setInt16FromEnd page.memaddr 2 count } none := by
  have nonneg := h.nonneg
  have small : 4080 / recordsize page.memaddr ≤ 4080 := Int.ediv_le_self _ (by decide)
  have size : recordsize (setInt16FromEnd page.memaddr 2 count) = recordsize page.memaddr :=
    Slotted.int16FromEnd_set_of_ne _ _ (by decide)
  have counted : recordcount (setInt16FromEnd page.memaddr 2 count) = count :=
    (Slotted.int16FromEnd_set_self _ _ _).trans (wrap16_of_range (by omega) (by omega))
  refine ⟨⟨⟨h.type, size.symm ▸ h.size⟩, ?_, ?_⟩, size, fun m live _ => ⟨⟨live.1, ?_⟩, ?_⟩⟩
  · show 0 ≤ recordcount (setInt16FromEnd page.memaddr 2 count)
    omega
  · refine ⟨4080 / recordsize page.memaddr, ?_, counted.symm ▸ fits⟩
    rw [size, recordsPerPage_eq h.toFormatted]
  · show m < recordcount (setInt16FromEnd page.memaddr 2 count)
    have := live.2
    omega
  · refine readRecord_congr size fun a _ high => Slotted.setInt16FromEnd_of_below _ _ ?_
    have last := (h.end_le live).2
    simp only [usableSizeOfPage]
    omega

theorem alloc_keeps : ∃ after, Op.run page .alloc = some after ∧ Keeps page after none := by
  have perPage := recordsPerPage_eq h.toFormatted
  have nonneg := h.nonneg
  by_cases room : 4080 / recordsize page.memaddr > recordcount page.memaddr
  · have pre : page.preAllocRecord = some (page.ridOf (recordcount page.memaddr)) := by
      rw [Page.preAllocRecord, preAlloc, perPage, Option.map_some, if_pos room, Option.map_some,
        if_neg (by omega)]
      rfl
    refine ⟨_, ?_, h.recount (recordcount page.memaddr + 1) (by omega) (by omega)⟩
    rw [Op.run, pre, Option.bind_some, if_neg (ridOf_ne_null h.toFormatted _),
      Page.postAllocRecord]
    refine (if_pos rfl).trans ?_
    exact congrArg _ (if_pos rfl)
  · have pre : page.preAllocRecord = some nullrid := by
      rw [Page.preAllocRecord, preAlloc, perPage, Option.map_some, if_neg room, Option.map_some,
        if_pos rfl]
    refine ⟨page, ?_, h, rfl, fun m live _ => ⟨live, rfl⟩⟩
    rw [Op.run, pre, Option.bind_some, if_pos rfl]

theorem write_keeps (live : Live page n) (length : dat.length = recordsize page.memaddr) :
    ∃ after, Op.run page (.write n dat) = some after ∧ Keeps page after (some n) := by
  have pos := h.size
  obtain ⟨low, high⟩ := h.end_le live
  obtain ⟨perPage, eq, le⟩ := h.fits
  have checked : page.write (page.ridOf n) = some (recordPtr page.memaddr n) := by
    refine if_pos ⟨?_, live.2⟩
    refine decide_eq_true ⟨?_, rfl, rfl, ?_⟩
    · rw [h.type]
      decide
    · show (recordsPerPage (recordsize page.memaddr)).any _ = true
      rw [eq]
      have := live.2
      exact decide_eq_true (show perPage > n by omega)
  have outside : ∀ a, a < recordPtr page.memaddr n ∨
      recordPtr page.memaddr n + recordsize page.memaddr ≤ a →
        storeList page.memaddr (recordPtr page.memaddr n) dat a = page.memaddr a :=
    fun a far => storeList_of_outside _ (length.symm ▸ far)
  have cells : ∀ k, k ≤ 2 → int16FromEnd (storeList page.memaddr (recordPtr page.memaddr n) dat) k =
      int16FromEnd page.memaddr k := by
    intro k le
    unfold Slotted.int16FromEnd
    simp only [usableSizeOfPage]
    exact load16_congr (outside _ (.inr (by omega))) (outside _ (.inr (by omega)))
  have size := cells 1 (by decide)
  have count := cells 2 (by decide)
  refine ⟨{ page with memaddr := storeList page.memaddr (recordPtr page.memaddr n) dat },
    by rw [Op.run, checked]; rfl, h.congr size count, size, fun m live' ne => ⟨⟨live'.1, ?_⟩, ?_⟩⟩
  · show m < int16FromEnd _ 2
    rw [count]
    exact live'.2
  · refine readRecord_congr size fun a low' high' => outside a ?_
    have other : m ≠ n := fun same => ne (congrArg some same.symm)
    rcases Int.lt_or_gt_of_ne other with before | behind
    · exact .inl (lt_of_lt_of_le high' (recordPtr_add_le pos before))
    · exact .inr (le_trans (recordPtr_add_le pos behind) low')

theorem free_keeps (spares : n + 1 ≠ recordsize page.memaddr) :
    Keeps page (page.freeRecord (page.ridOf n)) (some n) := by
  have same : page.freeRecord (page.ridOf n) = page := by
    show { page with memaddr := free page.memaddr n } = page
    rw [free, if_neg spares.symm]
  rw [same]
  exact ⟨h, rfl, fun m live _ => ⟨live, rfl⟩⟩

theorem Op.run_keeps (op : Op) (allowed : op.Allowed page) (spares : op.Spares page) :
    ∃ after, op.run page = some after ∧ Keeps page after op.slot := by
  cases op with
  | alloc => exact alloc_keeps h
  | write n dat => exact write_keeps h allowed.1 allowed.2
  | free n => exact ⟨_, rfl, free_keeps h spares⟩

end

/-- The pages that are reached without freeing the slot below the record size. -/
inductive Reachable (start : Page) : Page → Prop
  | start : Reachable start start
  | step {page after : Page} (op : Op) (reached : Reachable start page) (allowed : op.Allowed page)
      (spares : op.Spares page) (run : op.run page = some after) : Reachable start after

/-- Unless the slot below the record size is freed, the record size never changes, the count stays
in its bounds, and every operation succeeds and leaves the records of other slots as they are. -/
theorem fixed_page_keeps_records {start : Page} (h : Bounded start)
    (reached : Reachable start page) :
    Bounded page ∧ recordsize page.memaddr = recordsize start.memaddr ∧
      ∀ op : Op, op.Allowed page → op.Spares page →
        ∃ after, op.run page = some after ∧ Keeps page after op.slot := by
  have inv : Bounded page ∧ recordsize page.memaddr = recordsize start.memaddr := by
    induction reached with
    | start => exact ⟨h, rfl⟩
    | step op _ allowed spares run ih =>
      obtain ⟨after', run', keeps⟩ := op.run_keeps ih.1 allowed spares
      cases run.symm.trans run'
      exact ⟨keeps.bounded, keeps.size.trans ih.2⟩
  exact ⟨inv.1, inv.2, fun op allowed spares => op.run_keeps inv.1 allowed spares⟩

/-- Ten records of eight bytes. -/
def tenPage : Page := ⟨7, fixedPage, (initializePageRaw 8 10).getD fun _ => 0⟩

theorem tenPage_bounded : Bounded tenPage :=
  ⟨⟨rfl, by decide +kernel⟩, by decide +kernel, 510, by decide +kernel, by decide +kernel⟩

def digits : List UInt8 := [1, 2, 3, 4, 5, 6, 7, 8]

/-- Slot 1 is written, and slot 9 freed. -/
theorem fixed_page_keeps_records_ten :
    ∃ page, Reachable tenPage page ∧ readRecord page.memaddr 1 = digits ∧ Bounded page ∧
      Keeps page (page.freeRecord (page.ridOf 9)) (some 9) := by
  obtain ⟨page, run, written, count, size⟩ : ∃ page, (Op.write 1 digits).run tenPage = some page ∧
      readRecord page.memaddr 1 = digits ∧ recordcount page.memaddr = 10 ∧
        recordsize page.memaddr = 8 := by
    decide +kernel
  have reached : Reachable tenPage page :=
    .step (.write 1 digits) .start ⟨⟨by decide, by decide +kernel⟩, by decide +kernel⟩ trivial run
  obtain ⟨bounded, _, steps⟩ := fixed_page_keeps_records tenPage_bounded reached
  obtain ⟨after, ran, keeps⟩ := steps (.free 9) ⟨by decide, by rw [count]; decide⟩
    (by show (9 : Int) + 1 ≠ _; rw [size]; decide)
  cases ran
  exact ⟨page, reached, written, bounded, keeps⟩

/-- Freeing slot 7 changes the record size, and with it the bytes of slot 1. -/
theorem free_below_record_size :
    ∃ page after, (Op.write 1 digits).run tenPage = some page ∧
      (Op.free 7).Allowed page ∧ (Op.free 7).run page = some after ∧
      recordsize page.memaddr = 8 ∧ recordsize after.memaddr = 7 ∧ Live after 1 ∧
      readRecord page.memaddr 1 = digits ∧
      readRecord after.memaddr 1 = [0, 1, 2, 3, 4, 5, 6] := by
  obtain ⟨page, run, count, size, count', size', bytes, bytes'⟩ :
      ∃ page, (Op.write 1 digits).run tenPage = some page ∧ 7 < recordcount page.memaddr ∧
        recordsize page.memaddr = 8 ∧ 1 < recordcount (free page.memaddr 7) ∧
          recordsize (free page.memaddr 7) = 7 ∧ readRecord page.memaddr 1 = digits ∧
            readRecord (free page.memaddr 7) 1 = [0, 1, 2, 3, 4, 5, 6] := by
    decide +kernel
  exact ⟨page, page.freeRecord (page.ridOf 7), run, ⟨by decide, count⟩, rfl, size, size',
    ⟨by decide, count'⟩, bytes, bytes'⟩

end Runs

end Stasis.Fixed
