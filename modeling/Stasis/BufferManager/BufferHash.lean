import Stasis.Library.Runs
import Stasis.Util.Ringbuffer

/-!
The buffer manager of `bufferHash.c`, with the replacement policy of `lruFast.c`.

A step is what a thread does while it holds the mutex. The mutex is released where a load waits
for the read of another thread, where the page that was to be evicted is dirty, and for a read
from the file. A flush of the dirty page table is a number of attempts to write pages back, each
with the mutex held. Frames of the buffer pool are numbered in the order in which they are taken
from it. A page is in the list of the policy if its `next` pointer is not null.

`pins` and `last` are no part of the program: `pins` has the frames that loads have returned and
that are not released, with the page that was asked for, and `last` the last contents of each
page. A load that need not initialise a page gives its contents up.
-/
namespace Stasis.BufferHash
open Function

/-- `sequential` says that writes are hinted to be sequential, and that latching is not to be
stressed. `stamp` is what `stasis_uninitialized_page_loaded` writes on a page. -/
structure Config (C : Type) where
  size : Nat
  sequential : Bool
  stamp : C → C

structure Page (C : Type) where
  id : Int
  pending : Bool
  pinCount : Int
  dirty : Bool
  contents : C
deriving DecidableEq, Repr

/-- What the mutex protects, and the page file. -/
structure Pool (C : Type) where
  pages : Nat → Page C
  pageCount : Nat
  cachedPages : Int → Option Nat
  lru : List Nat
  file : Int → C

section Model
variable {C : Type}

namespace Pool

def set (b : Pool C) (f : Nat) (p : Page C) : Pool C :=
  { b with pages := update b.pages f p }

/-- `stasis_lru_fast_getStale` -/
def getStale (b : Pool C) : Option Nat := b.lru.head?

/-- `stasis_lru_fast_remove` -/
def lruRemove (b : Pool C) (f : Nat) : Except Stop (Pool C) :=
  let pinned := b.set f { b.pages f with pinCount := (b.pages f).pinCount + 1 }
  if (b.pages f).pinCount = 0 then
    if f ∈ b.lru then .ok { pinned with lru := b.lru.erase f }
    else if (b.pages f).dirty then .ok pinned
    else .error .fails
  else .ok pinned

/-- `stasis_lru_fast_insert` -/
def lruInsert (cfg : Config C) (b : Pool C) (f : Nat) : Except Stop (Pool C) :=
  let unpinned := b.set f { b.pages f with pinCount := (b.pages f).pinCount - 1 }
  if (b.pages f).pinCount - 1 < 0 then .error .fails
  else if (b.pages f).pinCount - 1 = 0 ∧ ¬ (cfg.sequential ∧ (b.pages f).dirty) then
    .ok { unpinned with lru := b.lru ++ [f] }
  else .ok unpinned

/-- `phWrite` -/
def phWrite (b : Pool C) (f : Nat) : Pool C :=
  if (b.pages f).dirty then
    { b.set f { b.pages f with dirty := false } with
      file := update b.file (b.pages f).id (b.pages f).contents }
  else b

end Pool

inductive WriteBack where
  | written
  | enoent
  | ebusy
deriving DecidableEq, Repr

def bhTryToWriteBackPage (b : Pool C) (page : Int) : Except Stop (Pool C × WriteBack) :=
  match b.cachedPages page with
  | none => .ok (b, .enoent)
  | some f =>
    if (b.pages f).id ≠ page then .error .fails
    else if (b.pages f).pending ∨ (b.pages f).pinCount ≠ 0 then .ok (b, .ebusy)
    else .ok (b.phWrite f, .written)

/-- What `getFreePage` comes to: the page to evict is dirty, or there is a page. -/
inductive Free (C : Type) where
  | flush
  | page (b : Pool C) (f : Nat)

/-- The assertions at the end of `getFreePage`. -/
def freePage (b : Pool C) (f : Nat) : Except Stop (Free C) :=
  if (b.pages f).pending ∨ f ∈ b.lru ∨ (b.pages f).pinCount ≠ 1 ∨ (b.pages f).dirty then
    .error .fails
  else .ok (.page b f)

/-- The loop of `getFreePage`, each time that it has the mutex. -/
def stalePage (b : Pool C) : Except Stop (Free C) :=
  match b.getStale with
  | none => .error .fails
  | some f =>
    if (b.pages f).pinCount ≠ 0 ∨ (b.pages f).pending then .error .fails
    else if (b.pages f).dirty then .ok .flush
    else do
      let b ← b.lruRemove f
      if b.cachedPages (b.pages f).id ≠ some f then .error .fails
      else freePage { b with cachedPages := update b.cachedPages (b.pages f).id none } f

def getFreePage (cfg : Config C) (b : Pool C) : Except Stop (Free C) :=
  if b.pageCount < cfg.size then
    let f := b.pageCount
    if (b.pages f).dirty then .error .fails
    else freePage { b.set f { b.pages f with id := -1, pending := false, pinCount := 1 } with
      pageCount := b.pageCount + 1 } f
  else stalePage b

/-- What a load does next: it returns a frame, in which the page is new or not, waits for the read
of a frame, flushes, or reads into a frame. -/
inductive After where
  | returned (f : Nat) (new : Bool)
  | waiting (f : Nat)
  | flushing
  | reading (f : Nat)
deriving DecidableEq, Repr

/-- The page is in a frame already. -/
def hit (b : Pool C) (pageid : Int) (f : Nat) : Except Stop (Pool C × After) :=
  if (b.pages f).pending then .ok (b, .waiting f)
  else do
    let b ← b.lruRemove f
    if (b.pages f).id ≠ pageid then .error .fails
    else .ok (b, .returned f false)

/-- The page is put into a frame. -/
def install (cfg : Config C) (b : Pool C) (pageid : Int) (uninitialized : Bool) (f : Nat) :
    Except Stop (Pool C × After) :=
  if b.cachedPages pageid ≠ none then .error .fails
  else
    let cached := { b with cachedPages := update b.cachedPages pageid (some f) }
    if uninitialized then
      if (b.pages f).dirty ∨ f ∈ b.lru then .error .fails
      else
        let page := { b.pages f with id := pageid, pending := false }
        .ok (cached.set f { page with contents := cfg.stamp page.contents }, .returned f true)
    else .ok (cached.set f { b.pages f with id := pageid, pending := true }, .reading f)

/-- `getFreePage` has returned. -/
def obtained (cfg : Config C) (pageid : Int) (uninitialized : Bool) :
    Free C → Pool C → Except Stop (Pool C × After)
  | .flush, b => .ok (b, .flushing)
  | .page b ret2, _ =>
    match b.cachedPages pageid with
    | none => install cfg b pageid uninitialized ret2
    | some ret => do
        let cachedPages := update b.cachedPages (b.pages ret2).id (some ret2)
        let b ← Pool.lruInsert cfg { b with cachedPages := cachedPages } ret2
        hit b pageid ret

/-- The loop of `bhLoadPageImpl_helper`. -/
def loadLoop (cfg : Config C) (b : Pool C) (pageid : Int) (uninitialized : Bool) :
    Option Nat → Except Stop (Pool C × After)
  | some ret => hit b pageid ret
  | none => do
      let free ← getFreePage cfg b
      obtained cfg pageid uninitialized free b

def phRead (b : Pool C) (f : Nat) : Except Stop (Pool C) :=
  if (b.pages f).dirty then .error .fails
  else .ok (b.set f { b.pages f with contents := b.file (b.pages f).id })

/-- The end of `bhLoadPageImpl_helper`, after the read. -/
def loadEnd (b : Pool C) (pageid : Int) (f : Nat) : Except Stop (Pool C) :=
  if f ∈ b.lru ∨ (b.pages f).id ≠ pageid then .error .fails
  else .ok (b.set f { b.pages f with pending := false })

def bhGetCachedPage (b : Pool C) (pageid : Int) : Except Stop (Pool C × Option Nat) :=
  match b.cachedPages pageid with
  | none => .ok (b, none)
  | some f =>
    if (b.pages f).pending then .ok (b, none)
    else do
      let b ← b.lruRemove f
      if (b.pages f).id ≠ pageid then .error .fails
      else .ok (b, some f)

end Model

/-- Where a thread is. -/
inductive Pc where
  | idle
  | waiting (pageid : Int) (uninitialized : Bool) (f : Nat)
  | flushing (pageid : Int) (uninitialized : Bool)
  | reading (pageid : Int) (f : Nat)
  | loaded (pageid : Int) (f : Nat)
deriving DecidableEq, Repr

structure World (T C : Type) where
  b : Pool C
  pcs : T → Pc
  pins : List (Nat × Int)
  last : Int → Option C

inductive Op (T C : Type) where
  | load (t : T) (pageid : Int) (uninitialized : Bool)
  | proceed (t : T)
  | getCachedPage (pageid : Int)
  | release (f : Nat) (pageid : Int)
  | write (f : Nat) (pageid : Int) (v : C)
  | writeBack (page : Int)
deriving DecidableEq, Repr

section Run
variable {T C : Type} [DecidableEq T]

namespace World

def init (pages : Nat → Page C) (file : Int → C) : World T C :=
  ⟨⟨pages, 0, fun _ => none, [], file⟩, fun _ => .idle, [], fun page => some (file page)⟩

def setPc (w : World T C) (t : T) (pc : Pc) : World T C :=
  { w with pcs := update w.pcs t pc }

/-- A part of a load is over. -/
def after (w : World T C) (t : T) (pageid : Int) (uninitialized : Bool) (b : Pool C) :
    After → World T C
  | .returned f new =>
    { w.setPc t .idle with
      b := b
      pins := (f, pageid) :: w.pins
      last := if new then update w.last pageid none else w.last }
  | .waiting f => { w.setPc t (.waiting pageid uninitialized f) with b := b }
  | .flushing => { w.setPc t (.flushing pageid uninitialized) with b := b }
  | .reading f => { w.setPc t (.reading pageid f) with b := b }

/-- A thread goes on where it released the mutex. -/
def proceed (cfg : Config C) (w : World T C) (t : T) : Except Stop (World T C) :=
  match w.pcs t with
  | .idle => .error .waits
  | .waiting pageid uninitialized f => do
      let ret := if (w.b.pages f).id = pageid then some f else w.b.cachedPages pageid
      let (b, after) ← loadLoop cfg w.b pageid uninitialized ret
      .ok (w.after t pageid uninitialized b after)
  | .flushing pageid uninitialized => do
      let free ← stalePage w.b
      let (b, after) ← obtained cfg pageid uninitialized free w.b
      .ok (w.after t pageid uninitialized b after)
  | .reading pageid f => do
      let b ← phRead w.b f
      .ok { w.setPc t (.loaded pageid f) with b := b }
  | .loaded pageid f => do
      let b ← loadEnd w.b pageid f
      .ok { w.setPc t .idle with b := b, pins := (f, pageid) :: w.pins }

end World

def run (cfg : Config C) (w : World T C) : Op T C → Except Stop (World T C)
  | .load t pageid uninitialized => do
      let (b, after) ← loadLoop cfg w.b pageid uninitialized (w.b.cachedPages pageid)
      .ok (w.after t pageid uninitialized b after)
  | .proceed t => w.proceed cfg t
  | .getCachedPage pageid => do
      let (b, ret) ← bhGetCachedPage w.b pageid
      .ok { w with b := b, pins := (ret.map fun f => (f, pageid)).toList ++ w.pins }
  | .release f pageid => do
      let b ← w.b.lruInsert cfg f
      .ok { w with b := b, pins := w.pins.erase (f, pageid) }
  | .write f pageid v =>
    .ok { w with
      b := w.b.set f { w.b.pages f with dirty := true, contents := v }
      last := update w.last pageid (some v) }
  | .writeBack page => do
      let (b, _) ← bhTryToWriteBackPage w.b page
      .ok { w with b := b }

/-- A page that is not pinned is available, or one that was never used. -/
def Available (cfg : Config C) (b : Pool C) : Prop :=
  b.pageCount < cfg.size ∨ ∃ f < b.pageCount, (b.pages f).pinCount = 0

/-- The pins of a page are an int, and there may be one more. -/
def Countable (b : Pool C) : Prop := ∀ f < b.pageCount, (b.pages f).pinCount < 2147483647

/-- A thread makes one call at a time. What a load has returned is released once, and can be
written until then. -/
def Allowed (cfg : Config C) (w : World T C) : Op T C → Prop
  | .load t pageid _ => w.pcs t = .idle ∧ pageid ≠ -1 ∧ Available cfg w.b ∧ Countable w.b
  | .proceed t => w.pcs t ≠ .idle ∧ Available cfg w.b ∧ Countable w.b
  | .getCachedPage _ => Countable w.b
  | .release f pageid => (f, pageid) ∈ w.pins
  | .write f pageid _ => (f, pageid) ∈ w.pins
  | .writeBack _ => True

end Run

end Stasis.BufferHash
