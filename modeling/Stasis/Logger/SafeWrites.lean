import Stasis.Logger.LogEntry
import Stasis.Util.Ringbuffer

/-!
The safe writes log.

One file holds a word, the offset of the file in the log, and then the entries, each behind
a word with its size. Entries are written through a buffer, and a force writes an entry with
the checksum of those since the last such entry. Opening the log reads it up to the last
entry with a checksum that matches. Truncation copies the rest of the log to a new file.

Threads are interleaved between the points at which they hold no mutex that the others need;
the write mutex is held from the reservation of an entry until it is written. `stale` is
what an uninitialised word on the stack holds, and `crc32` continues a checksum.
-/
namespace Stasis.SafeWrites
open LittleEndian RawLogEntry

/-- `stasis_log_safe_writes_state`. What was written is in `file` and then in `buffer`, and
the first `synced` bytes of the file are on disk. -/
structure State where
  softcommit : Bool
  osync : Bool
  file : List UInt8
  buffer : List UInt8
  synced : Nat
  globalOffset : Int
  nextAvailableLSN : Int
  flushedLSNWal : Int
  flushedLSNCommit : Int
  flushedLSNInternal : Int
  crc : UInt32
  minPending : AggregateMin
  writeMutex : Option Nat

def nextEntry (e : RawLogEntry) : Int := e.LSN + (e.sizeofLogEntry + lsnSize)

/-- The bytes that `sizeofLogEntry` says there are. -/
def sizedBytes (e : RawLogEntry) : List UInt8 := e.bytes.take e.sizeofLogEntry.toNat

def frame (e : RawLogEntry) : List UInt8 := encodeInt lsnSize e.sizeofLogEntry ++ sizedBytes e

/-- The entry at the start of `rest` and what follows it. If the size word is cut off, the
rest of it is read with a count that is computed from it, and `read` refuses a negative
count. -/
def readLogEntry (stale : Int) (rest : List UInt8) :
    Except Stop (Option (RawLogEntry × List UInt8)) :=
  let word := rest.take lsnSize
  if word.length = lsnSize then
    let size := decodeInt word
    if size = 0 then .ok none
    else if size < 0 then .error .fails
    else
      let entry := (rest.drop lsnSize).take size.toNat
      if entry.length = size.toNat then
        .ok (some (ofBytes entry, (rest.drop lsnSize).drop size.toNat))
      else .ok none
  else if word.length = 0 then .ok none
  else
    let newSize := decodeInt (word ++ (encodeInt lsnSize stale).drop word.length) - word.length
    if newSize < 0 then .error .fails else .ok none

section Checksums
variable (crc32 : List UInt8 → UInt32 → UInt32)

def logCrcUpdate (e : RawLogEntry) (crc : UInt32) : UInt32 := crc32 (sizedBytes e) crc

/-- The checksum of zero matches always. -/
def CrcMatches (crc : UInt32) (e : RawLogEntry) : Prop :=
  e.prevLSN = 0 ∨ (crc.toNat : Int) = e.prevLSN % 2 ^ 32

instance (crc : UInt32) (e : RawLogEntry) : Decidable (CrcMatches crc e) :=
  inferInstanceAs (Decidable (_ ∨ _))

/-- Every round of the loop reads some bytes: with more rounds than there are bytes, the loop
ends by itself. -/
def logCrcNextLsn (stale : Int) : Nat → Int → UInt32 → List UInt8 → Except Stop Int
  | 0, ret, _, _ => .ok ret
  | fuel + 1, ret, crc, rest =>
    match readLogEntry stale rest with
    | .error e => .error e
    | .ok none => .ok ret
    | .ok (some (le, rest)) =>
      if le.type = internalLog then
        if CrcMatches crc le then logCrcNextLsn stale fuel (nextEntry le) 0 rest
        else .ok ret
      else logCrcNextLsn stale fuel ret (logCrcUpdate crc32 le crc) rest

/-- The log that was just opened. What the file holds counts as being on disk. -/
def openedAt (softcommit osync : Bool) (globalOffset next : Int) (file : List UInt8) : State where
  softcommit := softcommit
  osync := osync
  file := file
  buffer := []
  synced := file.length
  globalOffset := globalOffset
  nextAvailableLSN := next
  flushedLSNWal := next
  flushedLSNCommit := next
  flushedLSNInternal := next
  crc := 0
  minPending := .init
  writeMutex := none

/-- `stasis_log_safe_writes_open`. A new file gets its header, and what is behind the last
checksum is cut off. -/
def safeWritesOpen (softcommit osync : Bool) (stale : Int) (file : List UInt8) :
    Except Stop State := do
  let file := if file = [] then encodeInt lsnSize 0 else file
  if file.length < lsnSize then .error .fails else
  let globalOffset := decodeInt (file.take lsnSize)
  let next ← logCrcNextLsn crc32 stale file.length (lsnSize + globalOffset) 0 (file.drop lsnSize)
  .ok (openedAt softcommit osync globalOffset next (file.take (next - globalOffset).toNat))

end Checksums

namespace State

/-- The buffer writes `n` of its bytes to the file. -/
def spill (sw : State) (n : Nat) : State :=
  let file := sw.file ++ sw.buffer.take n
  { sw with
    file := file
    buffer := sw.buffer.drop n
    synced := if sw.osync then file.length else sw.synced }

def fflush (sw : State) : State := sw.spill sw.buffer.length

def fdatasync (sw : State) : State := { sw with synced := sw.file.length }

/-- The entry gets the next number. -/
def reserveEntry (sw : State) (thread ptr : Nat) : Except Stop State :=
  if sw.writeMutex.isSome then .error .waits
  else .ok { sw with
    writeMutex := some ptr
    minPending := sw.minPending.add thread ⟨ptr, sw.nextAvailableLSN⟩ }

/-- The entry as it is written: one with a checksum gets it in `prevLSN`. -/
def stamped (sw : State) (e : RawLogEntry) (clearcrc : Bool) : RawLogEntry :=
  if clearcrc then { e with prevLSN := sw.crc.toNat } else e

def writeLogEntryUnlocked (crc32 : List UInt8 → UInt32 → UInt32) (sw : State) (e : RawLogEntry)
    (clearcrc : Bool) : Except Stop State :=
  if clearcrc = decide (e.type = internalLog) then
    let e := sw.stamped e clearcrc
    .ok { sw with
      crc := if clearcrc then 0 else logCrcUpdate crc32 e sw.crc
      buffer := sw.buffer ++ frame e
      nextAvailableLSN := nextEntry e
      writeMutex := none }
  else .error .fails

section
variable (sw : State)

def entryDone (thread ptr : Nat) (lsn : Int) : Except Stop State :=
  match sw.minPending.remove thread ⟨ptr, lsn⟩ with
  | some min => .ok { sw with minPending := min }
  | none => .error .fails

def firstPendingLSN : Int :=
  match sw.minPending.compute.1 with
  | some h => h.lsn
  | none => sw.nextAvailableLSN

def flushedLSN : ForceMode → Int
  | .commit => sw.flushedLSNCommit
  | .wal => sw.flushedLSNWal

/-- The part of `syncLog` that decides about fdatasync. -/
def syncFile (mode : ForceMode) : State :=
  if (sw.softcommit ∧ mode = .wal) ∨ ¬(sw.softcommit ∨ sw.osync) then sw.fdatasync else sw

/-- The part of `syncLog` that holds the latch of the flushed numbers. -/
def publish (mode : ForceMode) (newFlushedLSN : Int) : State :=
  { sw with
    flushedLSNWal := if ¬sw.softcommit ∨ mode = .wal then max sw.flushedLSNWal newFlushedLSN
      else sw.flushedLSNWal
    flushedLSNCommit := max sw.flushedLSNCommit newFlushedLSN
    flushedLSNInternal := max sw.flushedLSNInternal newFlushedLSN }

def syncLogInternal : State :=
  if sw.nextAvailableLSN > sw.flushedLSNInternal then
    { sw.fflush with flushedLSNInternal := sw.nextAvailableLSN }
  else sw

end

def readLSNEntry (stale : Int) (sw : State) (LSN : Int) :
    Except Stop (State × Option RawLogEntry) :=
  if LSN ≥ sw.nextAvailableLSN then .ok (sw, none)
  else
    let sw := if sw.flushedLSNInternal ≤ LSN then sw.syncLogInternal else sw
    if sw.flushedLSNInternal ≤ LSN then .error .fails
    else if sw.globalOffset > LSN then .ok (sw, none)
    else
      match readLogEntry stale (sw.file.drop (LSN - sw.globalOffset).toNat) with
      | .error e => .error e
      | .ok none => .error .fails
      | .ok (some (e, _)) => .ok (sw, some e)

/-- The loop of the truncation over the log from `offset` on; the first entry with a checksum
loses it. -/
def copyLog (stale : Int) : Nat → State → Int → Int → Bool →
    Except Stop (State × List RawLogEntry)
  | 0, sw, _, _, _ => .ok (sw, [])
  | fuel + 1, sw, offset, nextLSN, firstInternalEntry =>
    match sw.readLSNEntry stale offset with
    | .error e => .error e
    | .ok (sw, none) => .ok (sw, [])
    | .ok (sw, some le) =>
      if nextLSN ≠ 0 ∧ nextLSN ≠ le.LSN then .error .fails
      else
        let first : Bool := firstInternalEntry ∧ le.type = internalLog
        let copy := if first then { le with prevLSN := 0 } else le
        match copyLog stale fuel sw (nextEntry le) (nextEntry le)
            (if first then false else firstInternalEntry) with
        | .error e => .error e
        | .ok (sw, copied) => .ok (sw, copy :: copied)

def logCrcDummyEntry (lsn : Int) : RawLogEntry := ⟨lsn, 0, -1, internalLog, []⟩

def copiedLength (copied : List RawLogEntry) : Int :=
  (copied.map fun e => (e.sizeofLogEntry + lsnSize : Int)).sum

def truncateLog (stale : Int) (sw : State) (LSN : Int) : Except Stop State :=
  if sw.globalOffset + lsnSize ≥ LSN then .ok sw
  else if sw.writeMutex.isSome then .error .waits
  else
    let sw := sw.fflush
    match copyLog stale sw.file.length sw LSN 0 true with
    | .error e => .error e
    | .ok (sw, copied) =>
      let crcEntry := logCrcDummyEntry sw.nextAvailableLSN
      let tmpLog := encodeInt lsnSize (LSN - lsnSize) ++ (copied ++ [crcEntry]).flatMap frame
      if sw.nextAvailableLSN = LSN + copiedLength copied ∧
          nextEntry crcEntry = LSN + copiedLength (copied ++ [crcEntry]) ∧
          (tmpLog.length : Int) = copiedLength (copied ++ [crcEntry]) + lsnSize ∧
          (tmpLog.length : Int) = nextEntry crcEntry - (LSN - lsnSize) then
        .ok { sw with
          file := tmpLog
          buffer := []
          synced := tmpLog.length
          globalOffset := LSN - lsnSize
          nextAvailableLSN := nextEntry crcEntry
          crc := 0 }
      else .error .fails

end State
end Stasis.SafeWrites
