import Stasis.Util.RingSafety
import Stasis.Library.File
import Stasis.Library.LittleEndian

/-!
The file pool log.

Threads reserve ranges of a ring buffer for their entries, find a chunk file for them,
and fill them; one worker writes the ring to the chunk files in batches. A chunk starts
at a log sequence number and has a file; files of truncated chunks are used again, with
what they hold. The state is that of all threads: where each writer is in
`reserve_entry`, `write_entry` and `write_entry_done`, and where the worker is in its
loop. A step is what a thread does between two points at which others can run.

`image` and `logged` are no part of the program: they record the bytes of the log and
the entries that were written, for the results about them.
-/
namespace Stasis.FilePool
open Memory LittleEndian Function

def targetChunkSize : Int := 128 * 1024 * 1024
def ringBase : Nat := 26
def writebackSize : Int := 16 * 1024 * 1024

/-- The words in front of an entry: its length and its checksum. -/
def frameOverhead : Nat := 8

section Frames
variable (crc32 : List UInt8 → UInt32)

def frame (entry : List UInt8) : List UInt8 :=
  encode 4 entry.length ++ encode 4 (crc32 entry).toNat ++ entry

/-- An entry starts with its log sequence number. -/
def lsnOf (entry : List UInt8) : Int := decode (entry.take 8)

end Frames

structure Chunk where
  offset : Int
  fd : Nat
deriving DecidableEq, Repr

/-- `none` is the source's -1. -/
def getChunkFromOffset (live : List Chunk) (lsn : Int) : Option Nat :=
  match live.getLast? with
  | none => none
  | some last =>
    if last.offset ≤ lsn ∧ last.offset + targetChunkSize > lsn then some (live.length - 1)
    else (live.findIdx? fun c => c.offset > lsn).bind fun i => if i = 0 then none else some (i - 1)

/-- Where a thread is with its entry. -/
inductive Phase where
  | placing
  | flushing (barrier : Int)
  | filling
  | written
deriving DecidableEq, Repr

structure Writer where
  off : Int
  sz : Nat
  phase : Phase
deriving DecidableEq, Repr

/-- Where the worker is. While it writes, `chunks` are the chunks of its batch from the
current one on, which is chunk `c`; `done` bytes of the batch are written, and the part of
the current chunk ends at `limit`. -/
inductive Worker where
  | idle
  | taken (handle : Handle) (len : Int)
  | writing (handle : Handle) (len : Int) (chunks : List Chunk) (c : Nat) (done limit : Int)
deriving DecidableEq, Repr

structure Pool where
  live : List Chunk
  dead : List Nat
  nextFile : Nat
  files : Nat → File
  session : RingSession
  mem : Bytes
  writers : Nat → Option Writer
  worker : Worker
  image : Bytes
  logged : List (Int × List UInt8)

namespace Pool

abbrev ring (pool : Pool) : Ringbuffer := pool.session.ring

section
variable (pool : Pool)

def firstUnstableLsn : Int := pool.ring.rt
def firstPendingLsn : Int := pool.ring.wt
def nextAvailableLsn : Int := pool.ring.wf

/-- The last dead file, with its contents, or a new one. -/
def appendChunk (newOffset : Int) : Pool :=
  match pool.dead.getLast? with
  | some fd => { pool with live := pool.live ++ [⟨newOffset, fd⟩], dead := pool.dead.dropLast }
  | none => { pool with
      live := pool.live ++ [⟨newOffset, pool.nextFile⟩]
      nextFile := pool.nextFile + 1 }

def setWriter (thread : Nat) (w : Option Writer) : Pool :=
  { pool with writers := update pool.writers thread w }

def callRing (op : RingOp) : Except Stop Pool := do
  let session ← op.run pool.session
  .ok { pool with session := session }

end

/-- The size of the entry is kept in 32 bits. -/
def reserveSpace (pool : Pool) (thread szs : Nat) : Except Stop Pool :=
  match pool.writers thread with
  | some _ => .error .waits
  | none => do
      let sz : Nat := szs % 2 ^ 32
      let after ← pool.callRing (.reserveSpace thread thread (sz + frameOverhead))
      .ok (after.setWriter thread (some ⟨pool.ring.wf, sz, .placing⟩))

/-- The chunk for the entry, appended if need be. -/
def ensureChunk (pool : Pool) (off : Int) (sz : Nat) : Except Stop Pool :=
  match getChunkFromOffset pool.live (off + sz + frameOverhead) with
  | some _ => .ok pool
  | none =>
    let pool := pool.appendChunk off
    if getChunkFromOffset pool.live off = some (pool.live.length - 1) then .ok pool
    else .error .fails

def barrier (pool : Pool) : Int := (pool.live.getLast?.map (·.offset)).getD 0 - 1

/-- The part of `reserve_entry` that holds the mutex of the pool, up to the flush. -/
def place (pool : Pool) (thread : Nat) : Except Stop Pool :=
  match pool.writers thread with
  | some ⟨off, sz, .placing⟩ => do
      let pool ← pool.ensureChunk off sz
      if pool.barrier < off then
        let after ← pool.callRing (.requestFlush pool.barrier)
        .ok (after.setWriter thread (some ⟨off, sz, .flushing pool.barrier⟩))
      else .ok (pool.setWriter thread (some ⟨off, sz, .filling⟩))
  | _ => .error .waits

def flushed (pool : Pool) (thread : Nat) : Except Stop Pool :=
  match pool.writers thread with
  | some ⟨off, sz, .flushing barrier⟩ =>
    if barrier ≤ pool.ring.rt then .ok (pool.setWriter thread (some ⟨off, sz, .filling⟩))
    else .error .waits
  | _ => .error .waits

/-- The ring with the bytes of `l` from offset `off` on. -/
def storeRing (ring : Ringbuffer) (mem : Bytes) (off : Int) (l : List UInt8) : Bytes := fun loc =>
  l[(ring.masked (loc - off)).toNat]?.getD (mem loc)

def writeEntry (crc32 : List UInt8 → UInt32) (pool : Pool) (thread : Nat) (entry : List UInt8) :
    Except Stop Pool :=
  match pool.writers thread with
  | some ⟨off, sz, .filling⟩ =>
    if entry.length = sz then do
      let after ← pool.callRing (.writeDone thread ⟨thread, off⟩)
      .ok { after.setWriter thread (some ⟨off, sz, .written⟩) with
        mem := storeRing pool.ring pool.mem off (frame crc32 entry)
        image := storeList pool.image off (frame crc32 entry)
        logged := pool.logged ++ [(off, entry)] }
    else .error .fails
  | _ => .error .waits

def writeEntryDone (pool : Pool) (thread : Nat) : Except Stop Pool :=
  match pool.writers thread with
  | some ⟨off, _, .written⟩ => do
      let after ← pool.callRing (.readingWriterDone thread ⟨thread, off⟩)
      .ok (after.setWriter thread none)
  | _ => .error .waits

def workerThread : Nat := 0

def consume (pool : Pool) : Except Stop Pool :=
  match pool.worker with
  | .idle => do
      let after ← pool.callRing (.consumeBytes workerThread workerThread writebackSize)
      .ok { after with
        worker := .taken ⟨workerThread, pool.ring.rf⟩ (after.ring.rf - pool.ring.rf) }
  | _ => .error .waits

/-- Where the part of chunk `c` ends in the batch at `off`. -/
def chunkLimit (live : List Chunk) (off len : Int) (c : Nat) : List Chunk → Option Int
  | [] => some len
  | _ :: _ => (live[c + 1]?).map fun next => next.offset - off

section
variable (pool : Pool)

def lookup : Except Stop Pool :=
  match pool.worker with
  | .taken handle len =>
    match getChunkFromOffset pool.live handle.lsn,
        getChunkFromOffset pool.live (handle.lsn + len) with
    | some chunk, some endchunk =>
      let chunks := (pool.live.drop chunk).take (1 + endchunk - chunk)
      match chunkLimit pool.live handle.lsn len chunk chunks.tail with
      | some limit =>
        .ok { pool with worker := .writing handle len chunks chunk 0 limit }
      | none => .error .fails
    | _, _ => .error .fails
  | _ => .error .waits

/-- The source bytes of the worker. -/
def ringBytes : Bytes := fun lsn => pool.mem (pool.ring.ptrOff lsn)

/-- One call of pwrite, which writes `n` of the bytes that are left of the part. -/
def pwrite (n : Int) : Except Stop Pool :=
  match pool.worker with
  | .writing handle len (cur :: rest) c done limit =>
    if 0 < n ∧ n ≤ limit - done then
      let lsn := handle.lsn + done
      let file := (pool.files cur.fd).write (lsn - cur.offset) pool.ringBytes lsn n
      .ok { pool with
        files := update pool.files cur.fd file
        worker := .writing handle len (cur :: rest) c (done + n) limit }
    else .error .waits
  | _ => .error .waits

/-- The current chunk ends with four zero bytes behind its entries. -/
def closeChunk : Except Stop Pool :=
  match pool.worker with
  | .writing handle len (cur :: next :: rest) c done limit =>
    if done = limit then
      let lsn := handle.lsn + done
      let file := (pool.files cur.fd).write (lsn - cur.offset) (fun _ => 0) 0 4
      match chunkLimit pool.live handle.lsn len (c + 1) rest with
      | some limit => .ok { pool with
          files := update pool.files cur.fd file
          worker := .writing handle len (next :: rest) (c + 1) done limit }
      | none => .error .fails
    else .error .waits
  | _ => .error .waits

def finish : Except Stop Pool :=
  match pool.worker with
  | .writing handle _ [_] _ done limit =>
    if done = limit then do
      let after ← pool.callRing (.readDone workerThread handle)
      .ok { after with worker := .idle }
    else .error .waits
  | _ => .error .waits

/-- Chunks in front of the one of `lsn` give up their files. -/
def truncate (lsn : Int) : Except Stop Pool :=
  match getChunkFromOffset pool.live lsn with
  | some chunk => .ok { pool with
      live := pool.live.drop chunk
      dead := pool.dead ++ (pool.live.take chunk).map (·.fd) }
  | none => .error .fails

/-- A file of zeros for a chunk to come. -/
def preallocFile : Pool :=
  { pool with
    files := update pool.files pool.nextFile ⟨targetChunkSize + 4096, fun _ => 0⟩
    dead := pool.dead ++ [pool.nextFile]
    nextFile := pool.nextFile + 1 }

end

end Pool

inductive PoolOp where
  | reserveSpace (thread szs : Nat)
  | place (thread : Nat)
  | flushed (thread : Nat)
  | writeEntry (thread : Nat) (entry : List UInt8)
  | writeEntryDone (thread : Nat)
  | consume
  | lookup
  | pwrite (n : Int)
  | closeChunk
  | finish
  | truncate (lsn : Int)
  | prealloc
  | requestFlush (off : Int)
deriving DecidableEq, Repr

def PoolOp.run (crc32 : List UInt8 → UInt32) (pool : Pool) : PoolOp → Except Stop Pool
  | reserveSpace thread szs => pool.reserveSpace thread szs
  | place thread => pool.place thread
  | flushed thread => pool.flushed thread
  | writeEntry thread entry => pool.writeEntry crc32 thread entry
  | writeEntryDone thread => pool.writeEntryDone thread
  | consume => pool.consume
  | lookup => pool.lookup
  | pwrite n => pool.pwrite n
  | closeChunk => pool.closeChunk
  | finish => pool.finish
  | truncate lsn => pool.truncate lsn
  | prealloc => .ok pool.preallocFile
  | requestFlush off => pool.callRing (.requestFlush off)

end Stasis.FilePool
