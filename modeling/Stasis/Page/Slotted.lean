import Stasis.Library.Memory

/-!
Slotted pages.

A page is its bytes. The slot directory grows down from the end of the usable
space in cells of 16 bits: free space, number of slots, head of the free list,
then offset and length of each slot. The length cell of a free slot links to the
next free slot, and the head of the free list is where the length of slot -1
would be. A function gives `none` where an assertion of the source fails.
-/
namespace Stasis
open Memory

def pageSize : Int := 4096
def usableSizeOfPage : Int := 4084
def invalidSlot : Int := -1
def blobSlot : Int := -2
def normalSlot : Int := -3
def sizeofBlobRecord : Int := 16
def slotTypeLengths : List Int := [-1, -1, sizeofBlobRecord, -1]

/-- The physical size of a record of type `type`. The source reads behind the table for
types below -3. -/
def recordTypeToSize (type : Int) : Option Int :=
  if 0 ≤ type then some type
  else slotTypeLengths[(0 - type).toNat]?.bind fun n => if 0 ≤ n then some n else none

namespace Slotted

def overheadPerRecord : Int := 4
def headerOverhead : Int := 6

section
variable (p : Bytes)

@[irreducible] def int16FromEnd (n : Int) : Int := load16 p (usableSizeOfPage - 2 * n)

@[irreducible] def setInt16FromEnd (n v : Int) : Bytes :=
  store16 p (usableSizeOfPage - 2 * n) v

abbrev freespace : Int := int16FromEnd p 1
abbrev numslots : Int := int16FromEnd p 2
abbrev freelist : Int := int16FromEnd p 3
abbrev slot (n : Int) : Int := int16FromEnd p (2 * n + 4)
abbrev slotLength (n : Int) : Int := int16FromEnd p (2 * n + 5)

abbrev setFreespace (v : Int) : Bytes := setInt16FromEnd p 1 v
abbrev setNumslots (v : Int) : Bytes := setInt16FromEnd p 2 v
abbrev setFreelist (v : Int) : Bytes := setInt16FromEnd p 3 v
abbrev setSlot (n v : Int) : Bytes := setInt16FromEnd p (2 * n + 4) v
abbrev setSlotLength (n v : Int) : Bytes := setInt16FromEnd p (2 * n + 5) v

/-- The address of the length cell of the last slot. -/
def slotListStart : Int := usableSizeOfPage - 2 * (2 * (numslots p - 1) + 5)

def initializePageRaw : Bytes :=
  setFreelist (setNumslots (setFreespace p 0) 0) invalidSlot

def freespaceForSlot (n : Int) : Option Int :=
  let slotOverhead :=
    if n = invalidSlot then (if freelist p = invalidSlot then overheadPerRecord else 0)
    else if n < numslots p then 0
    else overheadPerRecord * ((n + 1) - numslots p)
  if freespace p ≤ slotListStart p then
    some (if slotListStart p < freespace p + slotOverhead then 0
      else slotListStart p - freespace p - slotOverhead)
  else none

end

structure Compaction where
  buffer : Bytes
  lastFreeSlot : Int
  lastFreeSlotBeforeUsedSlot : Int
  lastUsedSlot : Int

/-- One round of the loop that rebuilds the free list and moves the records. -/
def compactSlot (p : Bytes) (c : Compaction) (i : Int) : Option Compaction :=
  if slot p i = invalidSlot then
    let buffer :=
      if c.lastFreeSlot = invalidSlot then setFreelist c.buffer i
      else setSlotLength c.buffer c.lastFreeSlot i
    some { c with buffer := setSlot buffer i invalidSlot, lastFreeSlot := i }
  else
    let logicalSize := slotLength p i
    (recordTypeToSize logicalSize).map fun physicalSize =>
      let buffer := copy c.buffer (freespace c.buffer) p (slot p i) physicalSize
      let buffer := setSlot buffer i (freespace buffer)
      let buffer := setSlotLength buffer i logicalSize
      { c with
        buffer := setFreespace buffer (freespace buffer + physicalSize)
        lastFreeSlotBeforeUsedSlot := c.lastFreeSlot
        lastUsedSlot := i }

def compactSlots (p : Bytes) (c : Compaction) : Nat → Option Compaction
  | 0 => some c
  | n + 1 => (compactSlots p c n).bind fun c => compactSlot p c n

/-- The source builds the compacted page in an uninitialised buffer. -/
def compact (buffer p : Bytes) : Option Bytes :=
  let buffer := copy buffer usableSizeOfPage p usableSizeOfPage (pageSize - usableSizeOfPage)
  let buffer := setFreelist (setFreespace buffer 0) invalidSlot
  (compactSlots p ⟨buffer, invalidSlot, invalidSlot, -1⟩ (numslots p).toNat).map fun c =>
    let buffer := setSlotLength c.buffer c.lastFreeSlotBeforeUsedSlot invalidSlot
    let buffer := setNumslots buffer (c.lastUsedSlot + 1)
    copy p 0 buffer 0 pageSize

section
variable (p : Bytes)

def getType (n : Int) : Int :=
  if numslots p ≤ n then invalidSlot
  else if slot p n = invalidSlot then invalidSlot
  else if 0 ≤ slotLength p n then normalSlot
  else slotLength p n

/-- The `size` bytes that the record pointer of slot `n` points to. -/
def readRecord (n size : Int) : List UInt8 :=
  (List.range size.toNat).map fun j : Nat => p (slot p n + j)

def setType (n type : Int) : Option Bytes :=
  let oldType := slotLength p n
  if n < numslots p ∧ oldType ≠ invalidSlot then
    (recordTypeToSize oldType).bind fun oldSize =>
      if type = normalSlot then some (setSlotLength p n oldSize)
      else if recordTypeToSize type = some oldSize then some (setSlotLength p n type)
      else none
  else none

def preAlloc (type : Int) : Option Int :=
  if type ≠ invalidSlot then
    let n := if freelist p ≠ invalidSlot then freelist p else numslots p
    (freespaceForSlot p n).bind fun free =>
      (recordTypeToSize type).map fun size => if free < size then invalidSlot else n
  else none

end

/-- Compact the page when the record does not fit as it is. -/
def makeRoom (buffer p : Bytes) (n size : Int) : Option Bytes :=
  (freespaceForSlot p n).bind fun free =>
    if free < size then
      (compact buffer p).bind fun p =>
        (freespaceForSlot p n).bind fun free => if size ≤ free then some p else none
    else some p

/-- Follow the free list up to slot `n`. The result is the last slot before it and what
follows that slot. -/
def freelistFind (p : Bytes) (n : Int) : Nat → Int → Int → Option (Int × Int)
  | 0, _, _ => none
  | fuel + 1, last, next =>
    if next ≠ invalidSlot ∧ next ≠ n then
      if next < numslots p ∧ slot p next = invalidSlot then
        freelistFind p n fuel next (slotLength p next)
      else none
    else some (last, next)

def freelistRemove (p : Bytes) (n : Int) : Option Bytes :=
  if n < numslots p ∧ slot p n = invalidSlot then
    let found :=
      if 0 < n ∧ slotLength p (n - 1) = n ∧ slot p (n - 1) = invalidSlot then
        some (n - 1, n)
      else freelistFind p n ((numslots p).toNat + 1) invalidSlot (freelist p)
    found.map fun (last, next) =>
      if next = n then
        if last = invalidSlot then setFreelist p (slotLength p n)
        else setSlotLength p last (slotLength p n)
      else p
  else some p

/-- Follow the free list to its last slot. -/
def freelistTail (p : Bytes) : Nat → Int → Int → Option Int
  | 0, _, _ => none
  | fuel + 1, lastSlot, next =>
    if next ≠ invalidSlot then
      if next < numslots p ∧ slot p next = invalidSlot then
        freelistTail p fuel next (slotLength p next)
      else none
    else some lastSlot

/-- Put the slots from the end of the directory up to slot `n` on the free list, behind
`lastSlot`. -/
def freelistExtend (n : Int) : Nat → Bytes → Int → Option (Bytes × Int)
  | 0, p, lastSlot => if numslots p < n then none else some (p, lastSlot)
  | fuel + 1, p, lastSlot =>
    if numslots p < n then
      let next := numslots p
      let p := setSlot (setSlotLength p lastSlot next) next invalidSlot
      freelistExtend n fuel (setNumslots p (numslots p + 1)) next
    else some (p, lastSlot)

def freelistAddGap (p : Bytes) (n : Int) : Option Bytes :=
  if numslots p < n then
    let tail :=
      if freelist p = invalidSlot then
        let numSlots := numslots p
        let p := setSlot (setFreelist p numSlots) numSlots invalidSlot
        some (setNumslots p (numslots p + 1), numSlots)
      else
        (freelistTail p ((numslots p).toNat + 1) invalidSlot (freelist p)).map fun lastSlot =>
          (setSlot p lastSlot invalidSlot, lastSlot)
    tail.bind fun (p, lastSlot) =>
      (freelistExtend n (n - numslots p).toNat p lastSlot).bind fun (p, lastSlot) =>
        if lastSlot < numslots p then some (setSlotLength p lastSlot invalidSlot) else none
  else some p

/-- Reserve space for the record and record its offset in the slot. -/
def placeRecord (p : Bytes) (freeSpace n type size : Int) : Option Bytes :=
  let p := if numslots p = n then setNumslots p (n + 1) else p
  if n < numslots p ∧ freeSpace = freespace p then
    some (setSlotLength (setSlot (setFreespace p (freeSpace + size)) n freeSpace) n type)
  else none

def postAlloc (buffer p : Bytes) (n type : Int) : Option Bytes :=
  (recordTypeToSize type).bind fun size =>
    (makeRoom buffer p n size).bind fun p =>
      let freeSpace := freespace p
      (freelistRemove p n).bind fun p =>
        (freelistAddGap p n).bind fun p => placeRecord p freeSpace n type size

/-- Give the space of a record back when no record follows it. -/
def trimFreespace (p : Bytes) (n recSize : Int) : Bytes :=
  if freespace p = slot p n + recSize then setFreespace p (freespace p - recSize) else p

/-- Drop the last slot of the directory, or put a slot in front of the free list. -/
def vacateSlot (p : Bytes) (n : Int) : Bytes :=
  if n = numslots p - 1 then setNumslots p (numslots p - 1)
  else setFreelist (setSlotLength (setSlot p n invalidSlot) n (freelist p)) n

def free (p : Bytes) (n : Int) : Option Bytes :=
  (recordTypeToSize (slotLength p n)).bind fun recSize =>
    let p := trimFreespace p n recSize
    if n < numslots p then
      let p := vacateSlot p n
      if getType p n = invalidSlot then some p else none
    else none

/-- The assertions on the cells in front of the slots. -/
def checkHeader (p : Bytes) : Bool :=
  0 ≤ slotListStart p ∧ slotListStart p < pageSize ∧ 0 ≤ numslots p ∧
    numslots p * overheadPerRecord < pageSize ∧ 0 ≤ freespace p ∧
    freespace p ≤ slotListStart p ∧ invalidSlot ≤ freelist p ∧ freelist p < numslots p

/-- The assertions on slot `i`, with whether the end of the free list was found before. A
link to a slot outside the directory is an access outside the source's array. -/
def checkSlot (p : Bytes) (foundEndOfList : Bool) (i : Int) : Option Bool :=
  if slot p i = invalidSlot then
    if slotLength p i = invalidSlot then
      if foundEndOfList then none else some true
    else if 0 ≤ slotLength p i ∧ slotLength p i < numslots p ∧
        slot p (slotLength p i) = invalidSlot then some foundEndOfList
    else none
  else if slot p i + slotLength p i ≤ freespace p then some foundEndOfList
  else none

def checkSlots (p : Bytes) (foundEndOfList : Bool) : Nat → Option Bool
  | 0 => some foundEndOfList
  | n + 1 => (checkSlots p foundEndOfList n).bind fun found => checkSlot p found n

def checkFreelist (p : Bytes) : Option Bool :=
  if freelist p ≠ invalidSlot then
    if slot p (freelist p) = invalidSlot then checkSlots p false (numslots p).toNat else none
  else checkSlots p true (numslots p).toNat

def markSlots (image : Bytes) : Nat → Bytes
  | 0 => image
  | n + 1 => setSlotLength (setSlot (markSlots image n) n 0xFCFC) n 0xFCFC

/-- The image of the page in which the bytes that records may use are marked 0xFF. -/
def checkImage (p : Bytes) : Bytes :=
  let image := fill (fun _ => 0) 0 pageSize 0xFF
  let image := fill image usableSizeOfPage pageSize 0xFE
  let image := fill image (usableSizeOfPage - headerOverhead) usableSizeOfPage 0xFD
  let image := fill image (freespace p) (slotListStart p) 0xFB
  markSlots image (numslots p).toNat

def markRecord (image : Bytes) (offset : Int) (mark : UInt8) : Nat → Option Bytes
  | 0 => some image
  | j + 1 => (markRecord image offset mark j).bind fun image =>
    if image (offset + j) = 0xFF then some (Function.update image (offset + j) mark)
    else none

def markRecords (p image : Bytes) : Nat → Option Bytes
  | 0 => some image
  | n + 1 => (markRecords p image n).bind fun image =>
    if slot p n ≠ invalidSlot then
      (recordTypeToSize (slotLength p n)).bind fun size =>
        markRecord image (slot p n) (UInt8.ofNat (n % 0xFF)) size.toNat
    else some image

/-- No assertion of slotted_check fails. -/
def check (p : Bytes) : Bool :=
  checkHeader p && checkFreelist p == some true &&
    (markRecords p (checkImage p) (numslots p).toNat).isSome

end Slotted
end Stasis
