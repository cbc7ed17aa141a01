import Stasis.Library.Runs
import Stasis.TransactionTable

/-!
Regions of the page file.

The page in front of a region has its boundary tag, with the size of the region and
the size of the one in front of it. The last region reaches to the end of the address
space. TregionAlloc looks for the first region that is vacant and large enough, and
merges vacant regions on its way. A tag has the fingerprint of the transaction that
last changed the status of the region, and while that transaction is active no other
one touches a region that it has freed. A call holds region_mutex to its end, and so
does the undo of an entry.
-/
namespace Stasis.Regions
open TransactionTable Function

def pageidMax : Int := 9223372036854775807

inductive Status where
  | vacant
  | zoned
  | occupied
  | condemned
deriving DecidableEq, Repr

structure Fingerprint where
  xid : Int
  recLsn : Int
deriving DecidableEq, Repr

/-- The fingerprint of INVALID_XID. -/
def Fingerprint.invalid : Fingerprint := ⟨invalidXid, invalidLsn⟩

structure BoundaryTag where
  size : Int
  prevSize : Int
  status : Status
  regionXidFp : Fingerprint
  allocationManager : Int
deriving DecidableEq, Repr

structure RegionAllocArg where
  startPage : Int
  pageCount : Int
  allocationManager : Int
deriving DecidableEq, Repr

/-- The entries at the end of a nested top action, which an abort undoes. -/
inductive Entry where
  | allocRegion (arg : RegionAllocArg)
  | deallocRegion (arg : RegionAllocArg)
deriving DecidableEq, Repr

/-- An assertion fails, or a loop has had all the turns that it was given. -/
inductive Halt where
  | assertion
  | turns
deriving DecidableEq, Repr

structure World where
  tags : Int → Option BoundaryTag
  tbl : TransactionTable
  nextLSN : Int
  undo : Int → List Entry
  aborting : Int → Bool

def assert (b : Prop) [Decidable b] : Except Halt Unit :=
  if b then .ok () else .error .assertion

namespace World

section
variable (w : World)

/-- An entry in the log, of transaction `xid`. -/
def logUpdate (xid : Int) : World :=
  { w with tbl := w.tbl.logged xid w.nextLSN, nextLSN := w.nextLSN + 1 }

/-- Tupdate of a page with a boundary tag. -/
def tupdate (xid page : Int) (tag : BoundaryTag) : World :=
  { w.logUpdate xid with tags := update w.tags page (some tag) }

def tgetTransactionFingerprint (xid : Int) : Except Halt (World × Fingerprint) :=
  if w.tbl.IsActive xid then
    let w := if (w.tbl xid).recLSN = invalidLsn then w.logUpdate xid else w
    .ok (w, ⟨xid, (w.tbl xid).recLSN⟩)
  else if xid = invalidXid then .ok (w, .invalid)
  else .error .assertion

def tisActiveTransaction (fp : Fingerprint) : Bool :=
  w.tbl.IsActive fp.xid ∧ (w.tbl fp.xid).recLSN = fp.recLsn

def readBoundaryTag (page : Int) : Except Halt (Option BoundaryTag) :=
  match w.tags page with
  | none => .ok none
  | some tag => do
      assert (page = 0 ∧ tag.prevSize = pageidMax ∨ page ≠ 0 ∧ tag.prevSize ≠ pageidMax)
      return some tag

/-- readBoundaryTag, and the assertion that the page has a boundary tag. -/
def expectBoundaryTag (page : Int) : Except Halt BoundaryTag := do
  match ← w.readBoundaryTag page with
  | none => .error .assertion
  | some tag => return tag

def tallocBoundaryTag (xid page : Int) (tag : BoundaryTag) : World :=
  w.tupdate xid page tag

def tsetBoundaryTag (xid page : Int) (tag : BoundaryTag) : Except Halt World := do
  assert (page = 0 ∧ tag.prevSize = pageidMax ∨ page ≠ 0 ∧ tag.prevSize < pageidMax / 2)
  let _ ← w.expectBoundaryTag page
  return w.tupdate xid page tag

def tdeallocBoundaryTag (xid page : Int) : Except Halt World := do
  let t ← w.expectBoundaryTag page
  let (w, fp) ← w.tgetTransactionFingerprint xid
  w.tsetBoundaryTag xid page { t with status := .condemned, regionXidFp := fp }

end

/-- The page file without regions, as regionsInit leaves it. -/
def regionsInit : World where
  tags := update (fun _ => none) 0 (some ⟨pageidMax, pageidMax, .vacant, .invalid, 0⟩)
  tbl := .init
  nextLSN := 1
  undo := fun _ => []
  aborting := fun _ => false

/-- The part of the region behind `page` that is not allocated gets a tag. -/
def splitRegion (w : World) (xid page pageCount : Int) (t : BoundaryTag) : Except Halt World := do
  assert (t.size > pageCount)
  let newPageid := page + pageCount + 1
  if t.size ≠ pageidMax then
    let newSize := t.size - pageCount - 1
    let succTag ← w.expectBoundaryTag (page + t.size + 1)
    let w ← w.tsetBoundaryTag xid (page + t.size + 1) { succTag with prevSize := newSize }
    return w.tallocBoundaryTag xid newPageid ⟨newSize, pageCount, .vacant, .invalid, 0⟩
  else
    return w.tallocBoundaryTag xid newPageid ⟨pageidMax, pageCount, .vacant, .invalid, 0⟩

def tregionAllocHelper (w : World) (xid page pageCount allocationManager : Int) :
    Except Halt World := do
  let t ← w.expectBoundaryTag page
  let w ← if t.size ≠ pageCount then w.splitRegion xid page pageCount t else pure w
  let (w, fp) ← w.tgetTransactionFingerprint xid
  w.tsetBoundaryTag xid page { t with
    status := .zoned
    regionXidFp := fp
    allocationManager := allocationManager
    size := pageCount }

/-- The first part of consolidateRegions. The flag says that the tag has still to be
written. -/
def mergeSuccessor (w : World) (xid firstPage : Int) (t : BoundaryTag) :
    Except Halt (World × BoundaryTag × Bool) := do
  if t.size ≠ pageidMax then
    let succPage := firstPage + 1 + t.size
    let succTag ← w.expectBoundaryTag succPage
    if succTag.size = pageidMax then
      assert (succTag.status = .vacant)
      let w ← w.tdeallocBoundaryTag xid succPage
      return (w, { t with size := pageidMax }, true)
    else if succTag.status = .vacant ∧ ¬ w.tisActiveTransaction succTag.regionXidFp then
      let size := t.size + succTag.size + 1
      let succSuccPage := succPage + succTag.size + 1
      let succSuccTag ← w.expectBoundaryTag succSuccPage
      let w ← w.tsetBoundaryTag xid succSuccPage { succSuccTag with prevSize := size }
      let w ← w.tdeallocBoundaryTag xid succPage
      return (w, { t with size := size }, true)
    else return (w, t, false)
  else return (w, t, false)

def writeOriginalTag (w : World) (xid firstPage : Int) (t : BoundaryTag)
    (mustWriteOriginalTag : Bool) : Except Halt (World × Int × BoundaryTag) := do
  if mustWriteOriginalTag then
    let w ← w.tsetBoundaryTag xid firstPage t
    return (w, firstPage, t)
  else return (w, firstPage, t)

/-- The predecessor takes the pages of the region, and the tag behind them is told. -/
def joinPredecessor (w : World) (xid firstPage predPage : Int) (t predTag : BoundaryTag) :
    Except Halt (World × BoundaryTag) := do
  if t.size = pageidMax then return (w, { predTag with size := pageidMax })
  else
    let predTag := { predTag with size := predTag.size + (t.size + 1) }
    let succPage := firstPage + 1 + t.size
    assert (predPage + predTag.size + 1 = succPage)
    let succTag ← w.expectBoundaryTag succPage
    let w ← w.tsetBoundaryTag xid succPage { succTag with prevSize := predTag.size }
    assert (succPage - predPage - 1 = predTag.size)
    return (w, predTag)

/-- The second part of consolidateRegions. -/
def mergePredecessor (w : World) (xid firstPage : Int) (t : BoundaryTag)
    (mustWriteOriginalTag : Bool) : Except Halt (World × Int × BoundaryTag) := do
  if t.prevSize ≠ pageidMax then
    let predPage := firstPage - 1 - t.prevSize
    let predTag ← w.expectBoundaryTag predPage
    if predTag.status = .vacant ∧ ¬ w.tisActiveTransaction predTag.regionXidFp then
      let w ← w.tdeallocBoundaryTag xid firstPage
      let (w, predTag) ← w.joinPredecessor xid firstPage predPage t predTag
      let w ← w.tsetBoundaryTag xid predPage predTag
      assert (predPage < firstPage)
      return (w, predPage, predTag)
    else w.writeOriginalTag xid firstPage t mustWriteOriginalTag
  else w.writeOriginalTag xid firstPage t mustWriteOriginalTag

def consolidateRegions (w : World) (xid firstPage : Int) (t : BoundaryTag) :
    Except Halt (World × Int × BoundaryTag) := do
  if t.status ≠ .vacant ∨ w.tisActiveTransaction t.regionXidFp then return (w, firstPage, t)
  else
    let (w, t, mustWriteOriginalTag) ← w.mergeSuccessor xid firstPage t
    w.mergePredecessor xid firstPage t mustWriteOriginalTag

/-- The loop of TregionAlloc. -/
def firstFit : Nat → World → Int → Int → Int → BoundaryTag → Except Halt (World × Int)
  | 0, _, _, _, _, _ => .error .turns
  | turns + 1, w, xid, pageCount, pageid, t => do
      if t.status ≠ .vacant ∨ t.size < pageCount ∨ w.tisActiveTransaction t.regionXidFp then
        let pageid := pageid + (t.size + 1)
        let t ← w.expectBoundaryTag pageid
        let (w, pageid, t) ← w.consolidateRegions xid pageid t
        firstFit turns w xid pageCount pageid t
      else return (w, pageid)

/-- TendNestedTopAction, with what an abort does about the action. -/
def tendNestedTopAction (w : World) (xid : Int) (e : Option Entry) : World :=
  { w.logUpdate xid with
    undo := update w.undo xid (e.toList ++ w.undo xid) }

def tregionAlloc (turns : Nat) (w : World) (xid pageCount allocationManager : Int) :
    Except Halt (World × Int) := do
  let t ← w.expectBoundaryTag 0
  let (w, pageid, t) ← w.consolidateRegions xid 0 t
  let (w, pageid) ← firstFit turns w xid pageCount pageid t
  let w := w.tendNestedTopAction xid none
  let w ← w.tregionAllocHelper xid pageid pageCount allocationManager
  return (w.tendNestedTopAction xid
    (some (.allocRegion ⟨pageid, pageCount, allocationManager⟩)), pageid + 1)

def operateDeallocRegionUnlocked (w : World) (xid : Int) (dat : RegionAllocArg) :
    Except Halt World := do
  let t ← w.expectBoundaryTag dat.startPage
  let (w, fp) ← w.tgetTransactionFingerprint xid
  w.tsetBoundaryTag xid dat.startPage { t with status := .vacant, regionXidFp := fp }

def tregionDealloc (w : World) (xid firstPage : Int) : Except Halt World := do
  let t ← w.expectBoundaryTag (firstPage - 1)
  let arg : RegionAllocArg := ⟨firstPage - 1, t.size, t.allocationManager⟩
  assert (t.status ≠ .vacant)
  let w ← w.operateDeallocRegionUnlocked xid arg
  return w.tendNestedTopAction xid (some (.deallocRegion arg))

/-- The undo of an allocation is op_dealloc_region, and that of a deallocation is
op_alloc_region. -/
def undoEntry (w : World) (xid : Int) : Entry → Except Halt World
  | .allocRegion dat => w.operateDeallocRegionUnlocked xid dat
  | .deallocRegion dat =>
    w.tregionAllocHelper xid dat.startPage dat.pageCount dat.allocationManager

/-- The pages of a region have no tags that are in use. -/
def fsckPage (w : World) (page : Int) : Except Halt Unit := do
  match ← w.readBoundaryTag page with
  | none => return ()
  | some orphan => assert (orphan.status = .condemned)

def fsckFrom (w : World) : Nat → Int → Int → BoundaryTag → Except Halt Unit
  | 0, _, _, _ => .error .turns
  | turns + 1, prevSize, tagPage, tag => do
      if tag.size ≠ pageidMax then
        assert (tag.status = .vacant ∨ tag.status = .zoned)
        assert (prevSize = tag.prevSize)
        (List.range tag.size.toNat).forM fun i => w.fsckPage (tagPage + 1 + i)
        let next ← w.expectBoundaryTag (tagPage + 1 + tag.size)
        w.fsckFrom turns tag.size (tagPage + 1 + tag.size) next
      else assert (tag.status = .vacant)

def fsckRegions (turns : Nat) (w : World) : Except Halt Unit := do
  let tag ← w.expectBoundaryTag 0
  assert (tag.prevSize = pageidMax)
  w.fsckFrom turns pageidMax 0 tag

def tbegin (w : World) (xid : Int) : World :=
  { w with tbl := w.tbl.set xid ⟨xid, invalidLsn, invalidLsn, reservedXtableXid⟩ }

/-- The slot of the transaction is given up. -/
def ended (w : World) (xid : Int) : World :=
  { w with
    tbl := w.tbl.set xid { w.tbl xid with xid := (w.tbl xid).xidWhenFree }
    undo := update w.undo xid []
    aborting := update w.aborting xid false }

/-- The next entry of an abort. -/
def undoNext (w : World) (xid : Int) : Except Halt World := do
  match w.undo xid with
  | [] => return w
  | e :: rest =>
    let after ← w.undoEntry xid e
    return { after with
      undo := update after.undo xid rest
      aborting := update after.aborting xid true }

end World

/-- An abort undoes the entries of the transaction one by one, the last one first, and gives
up the slot when it is done with them. -/
inductive Op where
  | begin (xid : Int)
  | alloc (turns : Nat) (xid pageCount allocationManager : Int)
  | dealloc (xid firstPage : Int)
  | commit (xid : Int)
  | undo (xid : Int)
  | aborted (xid : Int)
deriving DecidableEq, Repr

def Op.run (w : World) : Op → Except Halt World
  | begin xid => .ok (w.tbegin xid)
  | alloc turns xid pageCount allocationManager => do
      let (w, _) ← w.tregionAlloc turns xid pageCount allocationManager
      return w
  | dealloc xid firstPage => w.tregionDealloc xid firstPage
  | commit xid => .ok (w.ended xid)
  | undo xid => w.undoNext xid
  | aborted xid => .ok (w.ended xid)

namespace World

/-- The transaction is active, and does not abort. -/
def Running (w : World) (xid : Int) : Prop := w.tbl.IsActive xid ∧ w.aborting xid = false

instance (w : World) (xid : Int) : Decidable (w.Running xid) :=
  inferInstanceAs (Decidable (_ ∧ _))

/-- The tag on `page`, if there is one, meets the condition. -/
def TagMeets (w : World) (page : Int) (P : BoundaryTag → Prop) : Prop :=
  ∃ t, w.tags page = some t ∧ P t

instance (w : World) (page : Int) (P : BoundaryTag → Prop) [DecidablePred P] :
    Decidable (w.TagMeets page P) :=
  match h : w.tags page with
  | none => isFalse fun ⟨_, held, _⟩ => by cases h.symm.trans held
  | some t =>
    if holds : P t then isTrue ⟨t, h, holds⟩
    else isFalse fun ⟨t', held, meets⟩ => holds (Option.some.inj (h.symm.trans held) ▸ meets)

/-- The transaction that last changed the status of the region is another one, and is still
active. -/
def OwnedByOther (w : World) (xid : Int) (t : BoundaryTag) : Prop :=
  w.tisActiveTransaction t.regionXidFp = true ∧ t.regionXidFp.xid ≠ xid

instance (w : World) (xid : Int) : DecidablePred (w.OwnedByOther xid) :=
  fun _ => inferInstanceAs (Decidable (_ ∧ _))

/-- The tag on `page` is the one of the last region. -/
def LastTag (w : World) (page : Int) : Prop :=
  w.TagMeets page fun t => t.size = pageidMax ∧ t.status ≠ .condemned

end World

/-- Calls of running transactions. -/
def Op.Legal (w : World) : Op → Prop
  | begin xid => InRange xid ∧ ¬ w.tbl.IsActive xid
  | alloc _ xid pageCount _ => w.Running xid ∧ 0 ≤ pageCount
  | dealloc xid firstPage => w.Running xid ∧ w.TagMeets (firstPage - 1) fun t => t.status = .zoned
  | commit xid => w.Running xid
  | undo xid => w.tbl.IsActive xid ∧ w.undo xid ≠ []
  | aborted xid => w.tbl.IsActive xid ∧ w.undo xid = []

/-- The page file does not outgrow the sizes that tags can have, and no region is freed
that an active transaction has allocated, other than by that transaction. -/
def Op.Careful (w : World) : Op → Prop
  | alloc _ _ pageCount _ => ∃ page, w.LastTag page ∧ page + pageCount + 1 < pageidMax / 2
  | dealloc xid firstPage => ∀ t, w.tags (firstPage - 1) = some t → ¬ w.OwnedByOther xid t
  | begin _ | commit _ | undo _ | aborted _ => True

/-- The page files of careful transactions. -/
abbrev Reached : World → Prop :=
  Runs.Reached Op.run (fun w (op : Op) => op.Legal w ∧ op.Careful w) .regionsInit

end Stasis.Regions
