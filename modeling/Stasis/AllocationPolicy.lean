import Stasis.Log.Entry
import Stasis.Library.OrderedTable
import Mathlib.Data.Prod.Lex

/-!
The allocation policy.

Three tables say how much room each page has and which transactions allocated from
it or deallocated from it. Two views, kept beside the tables, say which pages nobody
uses and which transaction owns a page. All but one of them are kept in two trees.
A function gives `none` where an assertion of the source fails or where it refuses to
continue.
-/
namespace Stasis.AllocationPolicy
open OrderedTable

structure PageFreespace where
  pageid : Int
  freespace : Nat
deriving DecidableEq, Repr

structure XidPageid where
  xid : Int
  pageid : Int
deriving DecidableEq, Repr

structure PageOwner where
  xid : Int
  freespace : Nat
  pageid : Int
deriving DecidableEq, Repr

def PageFreespace.keyPageid (r : PageFreespace) : Int := r.pageid

def PageFreespace.keyFreespacePageid (r : PageFreespace) : Nat ×ₗ Int :=
  toLex (r.freespace, r.pageid)

def PageOwner.keyPageid (r : PageOwner) : Int := r.pageid

def PageOwner.keyXidFreespacePageid (r : PageOwner) : Int ×ₗ Nat ×ₗ Int :=
  toLex (r.xid, toLex (r.freespace, r.pageid))

def XidPageid.keyPageidXid (r : XidPageid) : Int ×ₗ Int := toLex (r.pageid, r.xid)

def XidPageid.keyXidPageid (r : XidPageid) : Int ×ₗ Int := toLex (r.xid, r.pageid)

/-- The same rows in two orders. -/
structure Indexed {T K L : Type} [LinearOrder K] [LinearOrder L] (key : T → K) (key2 : T → L) where
  primary : Tree key
  secondary : Tree key2

section Helpers
variable {T K L : Type} [LinearOrder K] [LinearOrder L] {key : T → K} {key2 : T → L}

def Indexed.empty : Indexed key key2 := ⟨.empty, .empty⟩

def voidSingleRemove (val : T) (a : Tree key) : Bool × Tree key :=
  ((a.find (key val)).isSome, a.delete (key val))

def voidSingleAdd (val : T) (a : Tree key) : Bool × Tree key :=
  let (found, a) := voidSingleRemove val a
  (found, a.insert val)

def voidDoubleRemove [DecidableEq T] (val : T) (t : Indexed key key2) :
    Option (Bool × Indexed key key2) :=
  match t.primary.find (key val) with
  | none => some (false, t)
  | some fullTuple =>
    if t.secondary.find (key2 fullTuple) = some fullTuple then
      some (true, ⟨t.primary.delete (key val), t.secondary.delete (key2 fullTuple)⟩)
    else none

/-- The tree gives back the new row itself only if it had none with its key. -/
def voidDoubleAdd (val : T) (t : Indexed key key2) : Option (Indexed key key2) :=
  if (t.primary.find (key val)).isNone ∧ (t.secondary.find (key2 val)).isNone then
    some ⟨t.primary.insert val, t.secondary.insert val⟩
  else none

end Helpers

abbrev XidTable : Type := Indexed XidPageid.keyPageidXid XidPageid.keyXidPageid

structure Policy where
  availablePages : Indexed PageFreespace.keyPageid PageFreespace.keyFreespacePageid
  pageOwners : Indexed PageOwner.keyPageid PageOwner.keyXidFreespacePageid
  allPages : Tree PageFreespace.keyPageid
  xidAlloced : XidTable
  xidDealloced : XidTable
  reuseWithinXact : Bool

def init : Policy where
  availablePages := .empty
  pageOwners := .empty
  allPages := .empty
  xidAlloced := .empty
  xidDealloced := .empty
  reuseWithinXact := false

section
variable (ap : Policy)

def availablePagesRemove (pageid : Int) : Option (Bool × Policy) := do
  let (ret, t) ← voidDoubleRemove ⟨pageid, 0⟩ ap.availablePages
  some (ret, { ap with availablePages := t })

def availablePagesAdd (pageid : Int) (freespace : Nat) : Option (Bool × Policy) := do
  let (ret, ap) ← availablePagesRemove ap pageid
  let t ← voidDoubleAdd ⟨pageid, freespace⟩ ap.availablePages
  some (ret, { ap with availablePages := t })

def pageOwnersRemove (pageid : Int) : Option (Bool × Policy) := do
  let (ret, t) ← voidDoubleRemove ⟨invalidXid, 0, pageid⟩ ap.pageOwners
  some (ret, { ap with pageOwners := t })

def pageOwnersAdd (xid : Int) (freespace : Nat) (pageid : Int) : Option (Bool × Policy) := do
  let (ret, ap) ← pageOwnersRemove ap pageid
  let t ← voidDoubleAdd ⟨xid, freespace, pageid⟩ ap.pageOwners
  some (ret, { ap with pageOwners := t })

/-- The first page of `xid` with room enough; `some none` if there is none. -/
def pageOwnersLookupByXidFreespace (xid : Int) (freespace : Nat) : Option (Option Int) :=
  match ap.pageOwners.secondary.lookupGreaterEq (toLex (xid, toLex (freespace, 0))) with
  | some tup =>
    if tup.xid = xid then if freespace ≤ tup.freespace then some (some tup.pageid) else none
    else some none
  | none => some none

def pageOwnersLookupByPageid (pageid : Int) : Option (Int × Nat) :=
  (ap.pageOwners.primary.find pageid).map fun tup => (tup.xid, tup.freespace)

def availablePagesLookupByFreespace (freespace : Nat) : Option Int :=
  match ap.availablePages.secondary.lookupGreaterEq (toLex (freespace, 0)) with
  | some tup => if freespace ≤ tup.freespace then some tup.pageid else none
  | none => none

def allPagesLookupByPageid (pageid : Int) : Option Nat :=
  (ap.allPages.find pageid).map (·.freespace)

def allPagesAdd (pageid : Int) (freespace : Nat) : Option (Bool × Policy) :=
  let (ret, t) := voidSingleAdd ⟨pageid, freespace⟩ ap.allPages
  let ap := { ap with allPages := t }
  if ret then some (ret, ap)
  else do
    let (ret2, ap) ← availablePagesAdd ap pageid freespace
    if ret2 then none else some (ret, ap)

def allPagesSetFreespace (pageid : Int) (freespace : Nat) : Option Policy :=
  let (existed, t) := voidSingleAdd ⟨pageid, freespace⟩ ap.allPages
  let ap := { ap with allPages := t }
  if existed then do
    let (availableExisted, ap) ← availablePagesRemove ap pageid
    let ap ← if availableExisted then (availablePagesAdd ap pageid freespace).map (·.2) else some ap
    match pageOwnersLookupByPageid ap pageid with
    | some (xid, _) =>
      let (_, ap) ← pageOwnersAdd ap xid freespace pageid
      if availableExisted then none else some ap
    | none => some ap
  else none

end

def xidAllocedDeallocedHelperLookupByXid (t : Tree XidPageid.keyXidPageid) (xid : Int) :
    List Int :=
  (t.range (toLex (xid, 0)) fun tup => tup.xid = xid).map (·.pageid)

def xidAllocedDeallocedHelperLookupByPageid (t : Tree XidPageid.keyPageidXid) (pageid : Int) :
    List Int :=
  (t.range (toLex (pageid, 0)) fun tup => tup.pageid = pageid).map (·.xid)

section
variable (ap : Policy)

def xidAllocedLookupByXid (xid : Int) : List Int :=
  xidAllocedDeallocedHelperLookupByXid ap.xidAlloced.secondary xid

def xidAllocedLookupByPageid (pageid : Int) : List Int :=
  xidAllocedDeallocedHelperLookupByPageid ap.xidAlloced.primary pageid

def xidDeallocedLookupByXid (xid : Int) : List Int :=
  xidAllocedDeallocedHelperLookupByXid ap.xidDealloced.secondary xid

def xidDeallocedLookupByPageid (pageid : Int) : List Int :=
  xidAllocedDeallocedHelperLookupByPageid ap.xidDealloced.primary pageid

def updateFreespace (pageid : Int) (freespace : Nat) : Option Policy :=
  allPagesSetFreespace ap pageid freespace

def registerNewPage (pageid : Int) (freespace : Nat) : Option Policy := do
  let (existed, ap) ← allPagesAdd ap pageid freespace
  if existed then updateFreespace ap pageid freespace else some ap

/-- The page belongs to `xid`, and is not free for all. -/
def setOwner (xid : Int) (freespace : Nat) (pageid : Int) : Option Policy := do
  let (_, ap) ← pageOwnersAdd ap xid freespace pageid
  let (_, ap) ← availablePagesRemove ap pageid
  some ap

def setShared (pageid : Int) : Option Policy := do
  let (_, ap) ← pageOwnersRemove ap pageid
  let (_, ap) ← availablePagesRemove ap pageid
  some ap

def setAvailable (freespace : Nat) (pageid : Int) : Option Policy := do
  let (_, ap) ← pageOwnersRemove ap pageid
  let (_, ap) ← availablePagesAdd ap pageid freespace
  some ap

/-- The views of a page from its rows in the two tables. -/
def setViews (freespace : Nat) (pageid : Int) : Option Policy :=
  match xidAllocedLookupByPageid ap pageid, xidDeallocedLookupByPageid ap pageid with
  | [], [] => setAvailable ap freespace pageid
  | [x], [] => setOwner ap x freespace pageid
  | [x], [y] =>
    if ap.reuseWithinXact ∧ x = y then setOwner ap x freespace pageid else setShared ap pageid
  | [], [y] => setOwner ap y freespace pageid
  | _, _ => setShared ap pageid

def updateViewsForPage (pageid : Int) : Option Policy :=
  match allPagesLookupByPageid ap pageid with
  | some freespace => setViews ap freespace pageid
  | none => do
      let ap ← registerNewPage ap pageid 0
      setViews ap 0 pageid

end

/-- Which of the two tables of transactions and pages. -/
inductive Use where
  | alloced
  | dealloced
deriving DecidableEq, Repr

def Policy.table (ap : Policy) : Use → XidTable
  | .alloced => ap.xidAlloced
  | .dealloced => ap.xidDealloced

def Policy.setTable (ap : Policy) (t : XidTable) : Use → Policy
  | .alloced => { ap with xidAlloced := t }
  | .dealloced => { ap with xidDealloced := t }

def xidAllocedDeallocedHelperRemove (ap : Policy) (use : Use) (xid pageid : Int) :
    Option (Bool × Policy) := do
  let (existed, t) ← voidDoubleRemove ⟨xid, pageid⟩ (ap.table use)
  let ap := ap.setTable t use
  let ap ← if existed then updateViewsForPage ap pageid else some ap
  some (existed, ap)

def xidAllocedDeallocedHelperAdd (ap : Policy) (use : Use) (xid pageid : Int) :
    Option (Bool × Policy) := do
  let (existed, ap) ← xidAllocedDeallocedHelperRemove ap use xid pageid
  let t ← voidDoubleAdd ⟨xid, pageid⟩ (ap.table use)
  let ap ← updateViewsForPage (ap.setTable t use) pageid
  some (existed, ap)

section
variable (ap : Policy) (xid pageid : Int)

def xidAllocedAdd : Option (Bool × Policy) :=
  xidAllocedDeallocedHelperAdd ap .alloced xid pageid

def xidAllocedRemove : Option (Bool × Policy) :=
  xidAllocedDeallocedHelperRemove ap .alloced xid pageid

def xidDeallocedAdd : Option (Bool × Policy) :=
  xidAllocedDeallocedHelperAdd ap .dealloced xid pageid

def xidDeallocedRemove : Option (Bool × Policy) :=
  xidAllocedDeallocedHelperRemove ap .dealloced xid pageid

def canXidAllocFromPage : Bool :=
  (xidDeallocedLookupByPageid ap pageid).all fun x => x = xid

end

def pickSuitablePage (ap : Policy) (xid : Int) (freespace : Nat) : Option Int := do
  match ← pageOwnersLookupByXidFreespace ap xid freespace with
  | some pageid => if canXidAllocFromPage ap xid pageid then some pageid else none
  | none =>
    match availablePagesLookupByFreespace ap freespace with
    | some pageid => if canXidAllocFromPage ap xid pageid then some pageid else none
    | none => some invalidPage

def transactionCompleted (ap : Policy) (xid : Int) : Option Policy := do
  let allocPages := xidAllocedLookupByXid ap xid
  let deallocPages := xidDeallocedLookupByXid ap xid
  let ap ← allocPages.foldlM (fun ap pageid => (xidAllocedRemove ap xid pageid).map (·.2)) ap
  deallocPages.foldlM (fun ap pageid => (xidDeallocedRemove ap xid pageid).map (·.2)) ap

def deallocedFromPage (ap : Policy) (xid pageid : Int) : Option Policy :=
  (xidDeallocedAdd ap xid pageid).map (·.2)

def allocedFromPage (ap : Policy) (xid pageid : Int) : Option Policy :=
  if canXidAllocFromPage ap xid pageid then (xidAllocedAdd ap xid pageid).map (·.2) else none

end Stasis.AllocationPolicy
