import Stasis.Util.Ringbuffer

/-!
The lock manager.

A transaction has a table of the objects that it has locked, and an object has a lock that
counts who has it. The tables of a transaction are used by its own thread only. The lock of an
object is used under a mutex, which a thread gives up while it waits; nobody signals the
conditions that threads wait for, so that a wait ends by itself or by a timeout. A step is what
a thread does between two points at which others can run. Calls with INVALID_XID, which return
at once, are left out.
-/
namespace Stasis.LockManager

def lladdDeadlock : Int := -1

/-- `LM_READLOCK` and `LM_WRITELOCK` -/
inductive Level where
  | read
  | write
deriving DecidableEq, Repr

structure Lock where
  readers : Int
  writers : Int
  waiting : Int
  active : Int
deriving DecidableEq, Repr

/-- `createLock` -/
def Lock.new : Lock := ⟨0, 0, 0, 0⟩

section Tables
variable {Obj : Type} [DecidableEq Obj]

/-- The locks of a transaction. -/
abbrev XidLocks (Obj : Type) := List (Obj × Level)

namespace XidLocks

section
variable (locks : XidLocks Obj) (obj : Obj)

def level : Option Level :=
  (locks.find? fun l => l.1 = obj).map (·.2)

def remove : XidLocks Obj := locks.filter fun l => l.1 ≠ obj

/-- A key that is there is not inserted again. -/
def insert (level : Level) : XidLocks Obj :=
  if (locks.level obj).isSome then locks else (obj, level) :: locks

end

end XidLocks

/-- What `xidLockTable` has for a transaction. A table may have been freed and still be there. -/
inductive Registered (Obj : Type) where
  | absent
  | table (locks : XidLocks Obj)
  | freed
deriving DecidableEq, Repr

/-- Where a thread is. `idle` comes with what the last call has returned. A request knows the
level that its transaction had when it was made; a commit knows the locks that it still has to
release, and whether it has put its table back. -/
inductive Call (Obj : Type) where
  | idle (ret : Int)
  | read (obj : Obj)
  | readWait (obj : Obj)
  | write (obj : Obj) (level : Option Level)
  | writeWait (obj : Obj) (level : Option Level)
  | unlock (obj : Obj)
  | decrement (obj : Obj) (level : Level)
  | commit (putBack : Bool) (left : XidLocks Obj)
deriving DecidableEq, Repr

structure Local (Obj : Type) where
  locks : Registered Obj
  call : Call Obj

/-- The level that is recorded for an object. -/
def Local.recorded (l : Local Obj) (obj : Obj) : Option Level :=
  match l.locks with
  | .table locks => locks.level obj
  | _ => none

end Tables

structure State (Xid Obj : Type) where
  locals : Xid → Local Obj
  ridLockTable : Obj → Option Lock

variable {Xid Obj : Type} [DecidableEq Xid] [DecidableEq Obj]

namespace State

def init : State Xid Obj := ⟨fun _ => ⟨.absent, .idle 0⟩, fun _ => none⟩

def lockOf (s : State Xid Obj) (obj : Obj) : Lock := (s.ridLockTable obj).getD Lock.new

def setLocal (s : State Xid Obj) (xid : Xid) (l : Local Obj) : State Xid Obj :=
  { s with locals := Function.update s.locals xid l }

def setLock (s : State Xid Obj) (obj : Obj) (l : Option Lock) : State Xid Obj :=
  { s with ridLockTable := Function.update s.ridLockTable obj l }

section
variable (s : State Xid Obj) (xid : Xid)

def setCall (call : Call Obj) : State Xid Obj :=
  s.setLocal xid { s.locals xid with call := call }

/-- The table of a transaction that begins a call; it is created if need be. -/
def locksOf : Except Stop (XidLocks Obj) :=
  match (s.locals xid).call, (s.locals xid).locks with
  | .idle _, .absent => .ok []
  | .idle _, .table locks => .ok locks
  | .idle _, .freed => .error .fails
  | _, _ => .error .waits

def beginTransaction : Except Stop (State Xid Obj) :=
  match (s.locals xid).call, (s.locals xid).locks with
  | .idle _, .absent => .ok (s.setLocal xid ⟨.table [], .idle 0⟩)
  | .idle _, _ => .ok (s.setCall xid (.idle 0))
  | _, _ => .error .waits

/-- The part of `lockManagerReadLockHashed` that looks at the locks of the transaction. -/
def readLock (obj : Obj) : Except Stop (State Xid Obj) := do
  let locks ← s.locksOf xid
  if (locks.level obj).isSome then .ok (s.setLocal xid ⟨.table locks, .idle 0⟩)
  else .ok (s.setLocal xid ⟨.table locks, .read obj⟩)

def writeLock (obj : Obj) : Except Stop (State Xid Obj) := do
  let locks ← s.locksOf xid
  if locks.level obj = some .write then .ok (s.setLocal xid ⟨.table locks, .idle 0⟩)
  else .ok (s.setLocal xid ⟨.table locks, .write obj (locks.level obj)⟩)

/-- The request is granted: `l` is the lock, on which the thread is active. -/
def grantRead (obj : Obj) (l : Lock) : Except Stop (State Xid Obj) :=
  match (s.locals xid).locks with
  | .table locks => .ok ((s.setLock obj (some { l with
      readers := l.readers + 1, active := l.active - 1 })).setLocal xid
        ⟨.table ((locks.remove obj).insert obj .read), .idle 0⟩)
  | _ => .error .fails

def grantWrite (obj : Obj) (level : Option Level) (l : Lock) : Except Stop (State Xid Obj) :=
  match (s.locals xid).locks with
  | .table locks => .ok ((s.setLock obj (some { l with
      waiting := l.waiting - 1
      readers := if level = none then l.readers + 1 else l.readers
      writers := l.writers + 1
      active := l.active - 1 })).setLocal xid
        ⟨.table ((if level = some .read then locks.remove obj else locks).insert obj .write),
          .idle 0⟩)
  | _ => .error .fails

end

/-- The readers that a request for writing counts as its own. -/
def me (level : Option Level) : Int := if level = some .read then 1 else 0

def mustWait (l : Lock) (level : Option Level) : Prop := l.writers ≠ 0 ∨ l.readers - me level ≠ 0

instance (l : Lock) (level : Option Level) : Decidable (mustWait l level) :=
  inferInstanceAs (Decidable (_ ∨ _))

section
variable (s : State Xid Obj) (xid : Xid)

/-- A request takes the mutex of its object. -/
def enter : Except Stop (State Xid Obj) :=
  match (s.locals xid).call with
  | .read obj =>
    let l := { s.lockOf obj with active := (s.lockOf obj).active + 1 }
    if l.writers ≠ 0 ∨ l.waiting ≠ 0 then
      .ok ((s.setLock obj (some l)).setCall xid (.readWait obj))
    else s.grantRead xid obj l
  | .write obj level =>
    let l := { s.lockOf obj with
      active := (s.lockOf obj).active + 1, waiting := (s.lockOf obj).waiting + 1 }
    if mustWait l level then .ok ((s.setLock obj (some l)).setCall xid (.writeWait obj level))
    else s.grantWrite xid obj level l
  | _ => .error .waits

/-- A wait ends before its time is over. -/
def wake : Except Stop (State Xid Obj) :=
  match (s.locals xid).call with
  | .readWait obj =>
    match s.ridLockTable obj with
    | some l => if l.writers ≠ 0 then .ok s else s.grantRead xid obj l
    | none => .error .fails
  | .writeWait obj level =>
    match s.ridLockTable obj with
    | some l => if mustWait l level then .ok s else s.grantWrite xid obj level l
    | none => .error .fails
  | _ => .error .waits

def timeout : Except Stop (State Xid Obj) :=
  match (s.locals xid).call with
  | .readWait obj =>
    match s.ridLockTable obj with
    | some l => .ok ((s.setLock obj (some { l with active := l.active - 1 })).setCall xid
        (.idle lladdDeadlock))
    | none => .error .fails
  | .writeWait obj _ =>
    match s.ridLockTable obj with
    | some l => .ok ((s.setLock obj (some { l with
        waiting := l.waiting - 1, active := l.active - 1 })).setCall xid (.idle lladdDeadlock))
    | none => .error .fails
  | _ => .error .waits

end

/-- The thread is active while it releases the lock, and no longer when it looks whether anybody
else uses it. -/
def decrementLock (s : State Xid Obj) (obj : Obj) (level : Level) : Except Stop (State Xid Obj) :=
  match s.ridLockTable obj with
  | none => .error .fails
  | some l =>
    let l := match level with
      | .write => { l with writers := l.writers - 1, readers := l.readers - 1 }
      | .read => { l with readers := l.readers - 1 }
    .ok (s.setLock obj (if l = Lock.new then none else some l))

def unlock (s : State Xid Obj) (xid : Xid) (obj : Obj) : Except Stop (State Xid Obj) := do
  let locks ← s.locksOf xid
  .ok (s.setLocal xid ⟨.table locks, .unlock obj⟩)

/-- `lockManagerUnlockHashed` after it has given up the mutex of the tables. -/
def remove (s : State Xid Obj) (xid : Xid) : Except Stop (State Xid Obj) :=
  match (s.locals xid).call, (s.locals xid).locks with
  | .unlock obj, .table locks =>
    match locks.level obj with
    | some level => .ok (s.setLocal xid ⟨.table (locks.remove obj), .decrement obj level⟩)
    | none => .error .fails
  | _, _ => .error .waits

def decrement (s : State Xid Obj) (xid : Xid) : Except Stop (State Xid Obj) :=
  match (s.locals xid).call with
  | .decrement obj level => do
      let s ← s.decrementLock obj level
      .ok (s.setCall xid (.idle 0))
  | _ => .error .waits

/-- The table is taken away. Where there is none, a new one is put there. -/
def commit (s : State Xid Obj) (xid : Xid) : Except Stop (State Xid Obj) :=
  match (s.locals xid).call, (s.locals xid).locks with
  | .idle _, .table locks => .ok (s.setLocal xid ⟨.absent, .commit false locks⟩)
  | .idle _, .absent => .ok (s.setLocal xid ⟨.table [], .commit true []⟩)
  | .idle _, .freed => .error .fails
  | _, _ => .error .waits

/-- A commit releases one of its locks; they come in the order of the hash table. -/
def release (s : State Xid Obj) (xid : Xid) (obj : Obj) : Except Stop (State Xid Obj) :=
  match (s.locals xid).call with
  | .commit putBack left =>
    match left.level obj with
    | some level => do
        let s ← s.decrementLock obj level
        .ok (s.setCall xid (.commit putBack (left.remove obj)))
    | none => .error .waits
  | _ => .error .waits

/-- The table is deleted, whether or not it is still there. -/
def finish (s : State Xid Obj) (xid : Xid) : Except Stop (State Xid Obj) :=
  match (s.locals xid).call with
  | .commit putBack [] =>
    .ok (s.setLocal xid ⟨if putBack then .freed else (s.locals xid).locks, .idle 0⟩)
  | _ => .error .waits

end State

inductive Op (Obj : Type) where
  | beginTransaction
  | readLock (obj : Obj)
  | writeLock (obj : Obj)
  | enter
  | wake
  | timeout
  | unlock (obj : Obj)
  | remove
  | decrement
  | commit
  | release (obj : Obj)
  | finish
deriving DecidableEq, Repr

def Op.run (s : State Xid Obj) (xid : Xid) : Op Obj → Except Stop (State Xid Obj)
  | beginTransaction => s.beginTransaction xid
  | readLock obj => s.readLock xid obj
  | writeLock obj => s.writeLock xid obj
  | enter => s.enter xid
  | wake => s.wake xid
  | timeout => s.timeout xid
  | unlock obj => s.unlock xid obj
  | remove => s.remove xid
  | decrement => s.decrement xid
  | commit => s.commit xid
  | release obj => s.release xid obj
  | finish => s.finish xid

end Stasis.LockManager
