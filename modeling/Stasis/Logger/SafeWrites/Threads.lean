import Stasis.Logger.SafeWrites

/-!
The threads of the safe writes log.

Each entry that a thread has reserved is a task, under the address of the entry; so is each
call of `syncLog`, which writes an entry of its own. Reopening takes a prefix of what was
written, and ends all tasks. `logged` is no part of the program: it records the entries that
the log holds.
-/
namespace Stasis.SafeWrites
open LittleEndian RawLogEntry

/-- Where a thread is with the entry `lsn`. The last phases are those of `syncLog` behind
`log_crc_entry`. -/
inductive Task where
  | idle
  | reserved (thread : Nat) (lsn : Int)
  | written (thread : Nat) (lsn : Int)
  | crcReserved (thread : Nat) (lsn : Int) (mode : ForceMode)
  | crcWritten (thread : Nat) (lsn : Int) (mode : ForceMode)
  | crcDone (lsn : Int) (mode : ForceMode)
  | fflushed (lsn : Int) (mode : ForceMode)
  | fdatasynced (lsn : Int) (mode : ForceMode)
deriving DecidableEq, Repr

/-- The entry is reserved and not done. -/
def Task.pending : Task → Option Int
  | reserved _ lsn | written _ lsn | crcReserved _ lsn _ | crcWritten _ lsn _ => some lsn
  | _ => none

structure Session where
  sw : State
  tasks : Nat → Task
  logged : List RawLogEntry

/-- The entry that `log_crc_entry` allocates. -/
def crcEntry (lsn : Int) : RawLogEntry := ⟨lsn, -1, -1, internalLog, []⟩

/-- `newFlushedLSN` in `syncLog` -/
def crcEnd (lsn : Int) : Int := lsn + lsnSize + rawSize

/-- What a truncation makes of the entries that it copies. -/
def clearFirst : List RawLogEntry → List RawLogEntry
  | [] => []
  | e :: l => if e.type = internalLog then { e with prevLSN := 0 } :: l else e :: clearFirst l

inductive Op where
  | reserve (ptr thread : Nat)
  | write (ptr : Nat) (e : RawLogEntry)
  | done (ptr : Nat)
  | forceReserve (ptr thread : Nat) (mode : ForceMode)
  | forceWrite (ptr : Nat)
  | forceDone (ptr : Nat)
  | forceFlush (ptr : Nat)
  | forceSync (ptr : Nat)
  | forcePublish (ptr : Nat)
  | spill (n : Nat)
  | syncInternal
  | truncate (stale LSN : Int)
  | reopen (stale : Int) (n : Nat)
deriving DecidableEq, Repr

namespace Session
variable (crc32 : List UInt8 → UInt32 → UInt32) (s : Session)

def setTask (ptr : Nat) (task : Task) : Session :=
  { s with tasks := Function.update s.tasks ptr task }

def reserve (ptr thread : Nat) (task : Task) : Except Stop Session :=
  match s.tasks ptr with
  | .idle => do
      let sw ← s.sw.reserveEntry thread ptr
      .ok ({ s with sw := sw }.setTask ptr task)
  | _ => .error .waits

def writeEntry (ptr : Nat) (e : RawLogEntry) (clearcrc : Bool) (task : Task) :
    Except Stop Session := do
  let sw ← s.sw.writeLogEntryUnlocked crc32 e clearcrc
  .ok ({ s with sw := sw, logged := s.logged ++ [s.sw.stamped e clearcrc] }.setTask ptr task)

def finish (ptr thread : Nat) (lsn : Int) (task : Task) : Except Stop Session := do
  let sw ← s.sw.entryDone thread ptr lsn
  .ok ({ s with sw := sw }.setTask ptr task)

def truncate (stale LSN : Int) : Except Stop Session := do
  let sw ← s.sw.truncateLog stale LSN
  .ok { s with
    sw := sw
    logged :=
      if s.sw.globalOffset + lsnSize ≥ LSN then s.logged
      else clearFirst (s.logged.filter fun e => LSN ≤ e.LSN) ++
        [State.logCrcDummyEntry s.sw.nextAvailableLSN] }

def reopen (stale : Int) (n : Nat) : Except Stop Session := do
  let sw ← safeWritesOpen crc32 s.sw.softcommit s.sw.osync stale ((s.sw.file ++ s.sw.buffer).take n)
  .ok ⟨sw, fun _ => .idle, s.logged.filter fun e => e.LSN < sw.nextAvailableLSN⟩

end Session

open SafeWrites.Session in
def Op.run (crc32 : List UInt8 → UInt32 → UInt32) (s : Session) : Op → Except Stop Session
  | reserve ptr thread => s.reserve ptr thread (.reserved thread s.sw.nextAvailableLSN)
  | write ptr e =>
    match s.tasks ptr with
    | .reserved thread lsn =>
      s.writeEntry crc32 ptr { e with LSN := lsn } false (.written thread lsn)
    | _ => .error .waits
  | done ptr =>
    match s.tasks ptr with
    | .written thread lsn => s.finish ptr thread lsn .idle
    | _ => .error .waits
  | forceReserve ptr thread mode =>
    s.reserve ptr thread (.crcReserved thread s.sw.nextAvailableLSN mode)
  | forceWrite ptr =>
    match s.tasks ptr with
    | .crcReserved thread lsn mode =>
      s.writeEntry crc32 ptr (crcEntry lsn) true (.crcWritten thread lsn mode)
    | _ => .error .waits
  | forceDone ptr =>
    match s.tasks ptr with
    | .crcWritten thread lsn mode => s.finish ptr thread lsn (.crcDone lsn mode)
    | _ => .error .waits
  | forceFlush ptr =>
    match s.tasks ptr with
    | .crcDone lsn mode => .ok ({ s with sw := s.sw.fflush }.setTask ptr (.fflushed lsn mode))
    | _ => .error .waits
  | forceSync ptr =>
    match s.tasks ptr with
    | .fflushed lsn mode =>
      .ok ({ s with sw := s.sw.syncFile mode }.setTask ptr (.fdatasynced lsn mode))
    | _ => .error .waits
  | forcePublish ptr =>
    match s.tasks ptr with
    | .fdatasynced lsn mode =>
      .ok ({ s with sw := s.sw.publish mode (crcEnd lsn) }.setTask ptr .idle)
    | _ => .error .waits
  | spill n => .ok { s with sw := s.sw.spill n }
  | syncInternal => .ok { s with sw := s.sw.syncLogInternal }
  | truncate stale LSN => s.truncate stale LSN
  | reopen stale n => s.reopen crc32 stale n

/-- The next step of a call of `syncLog` that has reserved its entry. -/
def Task.nextForce (ptr : Nat) : Task → Option Op
  | crcReserved _ _ _ => some (.forceWrite ptr)
  | crcWritten _ _ _ => some (.forceDone ptr)
  | crcDone _ _ => some (.forceFlush ptr)
  | fflushed _ _ => some (.forceSync ptr)
  | fdatasynced _ _ => some (.forcePublish ptr)
  | _ => none

section
variable (crc32 : List UInt8 → UInt32 → UInt32) (s : Session) (ptr thread : Nat)

/-- `syncLog`, with no steps of others in between. -/
def Session.syncLog (mode : ForceMode) : Except Stop Session :=
  [.forceReserve ptr thread mode, .forceWrite ptr, .forceDone ptr, .forceFlush ptr, .forceSync ptr,
    .forcePublish ptr].foldlM (Op.run crc32) s

/-- The part of `close` that writes to the file: a force, and what fclose finds in the
buffer. -/
def Session.closeLog : Except Stop Session := do
  let s ← s.syncLog crc32 ptr thread .wal
  .ok { s with sw := s.sw.fflush }

end

/-- The entry fits in its words, and the number behind it too. -/
def Task.Fits (e : RawLogEntry) : Task → Prop
  | reserved _ lsn =>
    ({ e with LSN := lsn } : RawLogEntry).Valid ∧ nextEntry { e with LSN := lsn } < 2 ^ 63
  | _ => True

/-- The start of an entry, or the end of the log. -/
def Boundary (sw : State) (logged : List RawLogEntry) (LSN : Int) : Prop :=
  (∃ e ∈ logged, e.LSN = LSN) ∨ LSN = sw.nextAvailableLSN

instance (sw : State) (logged : List RawLogEntry) (LSN : Int) : Decidable (Boundary sw logged LSN) :=
  inferInstanceAs (Decidable (_ ∨ _))

/-- What the callers do: entries that fit in their words and have the size that their type
says, and truncation at an entry or at the end of the log. A prefix holds the header, and
numbers stay in range. -/
def Op.Allowed (s : Session) : Op → Prop
  | write ptr e => (s.tasks ptr).Fits e
  | forceWrite _ => crcEnd s.sw.nextAvailableLSN < 2 ^ 63
  | truncate _ LSN => (LSN ≤ s.sw.globalOffset + lsnSize ∨ Boundary s.sw s.logged LSN) ∧
      crcEnd s.sw.nextAvailableLSN < 2 ^ 63
  | reopen _ n => lsnSize ≤ n
  | _ => True

instance (e : RawLogEntry) : (task : Task) → Decidable (task.Fits e)
  | .reserved _ lsn => inferInstanceAs
      (Decidable (({ e with LSN := lsn } : RawLogEntry).Valid ∧ nextEntry { e with LSN := lsn } < 2 ^ 63))
  | .idle | .written _ _ | .crcReserved _ _ _ | .crcWritten _ _ _ | .crcDone _ _ | .fflushed _ _
  | .fdatasynced _ _ => isTrue trivial

instance (s : Session) : (op : Op) → Decidable (op.Allowed s)
  | .write ptr e => inferInstanceAs (Decidable ((s.tasks ptr).Fits e))
  | .forceWrite _ => inferInstanceAs (Decidable (crcEnd s.sw.nextAvailableLSN < 2 ^ 63))
  | .truncate _ LSN => inferInstanceAs (Decidable ((LSN ≤ s.sw.globalOffset + lsnSize ∨
      Boundary s.sw s.logged LSN) ∧ crcEnd s.sw.nextAvailableLSN < 2 ^ 63))
  | .reopen _ n => inferInstanceAs (Decidable (lsnSize ≤ n))
  | .reserve _ _ | .done _ | .forceReserve _ _ _ | .forceDone _ | .forceFlush _ | .forceSync _
  | .forcePublish _ | .spill _ | .syncInternal => isTrue trivial

/-- A log in a new file. -/
def created (softcommit osync : Bool) : Session :=
  ⟨openedAt softcommit osync 0 lsnSize (encodeInt lsnSize 0), fun _ => .idle, []⟩

/-- A step that is taken if it is allowed. -/
def Session.runAllowed (crc32 : List UInt8 → UInt32 → UInt32) (s : Session) (op : Op) :
    Except Stop Session :=
  if op.Allowed s then op.run crc32 s else .error .fails

end Stasis.SafeWrites
