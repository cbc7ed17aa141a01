import Stasis.Library.Memory
import Mathlib

/-!
The experimental ring buffer.

Positions grow without bound. The size is kept in 32 bits, and most lengths are while bytes are
copied. `capacity` is no part of the program: it is the number of bytes that were allocated. A copy
that leaves them and a division by zero give `none`.
-/
namespace Stasis.RingBuffer
open Memory List

/-- The value of an `int`. -/
def toInt (n : Int) : Int := n.bmod (2 ^ 32)

structure RingBufferLog where
  buf : Bytes
  capacity : Int
  size : Int
  start : Int
  «end» : Int

def openLogRingBuffer (stale : Bytes) (size initialOffset : Int) : RingBufferLog :=
  ⟨stale, size, size % 2 ^ 32, initialOffset % size, initialOffset % size⟩

section Model
variable (log : RingBufferLog)

/-- The lengths of the pieces at `offset` and at 0 of a copy that goes up to `stop`. -/
def pieces (offset stop : Int) (size : Nat) : Option (Int × Int) :=
  let firstPieceLength := if stop < log.size then (size : Int) else toInt (log.size - offset)
  let secondPieceLength := if stop < log.size then 0 else toInt (size - firstPieceLength)
  if log.size ≠ 0 ∧ (0 ≤ offset ∧ 0 ≤ firstPieceLength ∧ offset + firstPieceLength ≤ log.capacity) ∧
    0 ≤ secondPieceLength ∧ secondPieceLength ≤ log.capacity
  then some (firstPieceLength, secondPieceLength) else none

def memcpyFromRingBuffer (dest : Bytes) (lsn : Int) (size : Nat) : Option Bytes :=
  let offset := lsn % log.size
  (pieces log offset (offset + size) size).map fun (first, second) =>
    copy (copy dest 0 log.buf offset first) first log.buf 0 second

/-- Unlike above, the offset is an `int`. It is added to the size as a `size_t`. -/
def memcpyToRingBuffer (src : Bytes) (lsn : Int) (size : Nat) : Option Bytes :=
  let offset := toInt (lsn % log.size)
  (pieces log offset ((offset + size) % 2 ^ 64) size).map fun (first, second) =>
    copy (copy log.buf offset src 0 first) 0 src first second

def ringBufferAppend (dat : Bytes) (size : Nat) : Option (RingBufferLog × Int) :=
  -- the assertion divides by the size
  if log.size = 0 then none
  else if size > log.size then some (log, -1)
  else if log.size < (log.end - log.start) + size then some (log, -2)
  else (memcpyToRingBuffer log dat log.end size).map fun buf =>
    ({ log with buf := buf, «end» := log.end + size }, 0)

def ringBufferTruncateRead (buf : Bytes) (size : Nat) : Option (RingBufferLog × Bytes × Int) :=
  if size > log.size then some (log, buf, -1)
  else if log.start + size > log.end then some (log, buf, -2)
  else (memcpyFromRingBuffer log buf (log.start % log.size) size).map fun buf =>
    ({ log with start := log.start + size }, buf, 0)

end Model

def bytes (m : Bytes) (n : Nat) : List UInt8 := (range n).map fun i : Nat => m i

inductive Call where
  | append (dat : Bytes) (size : Nat)
  | read (buf : Bytes) (size : Nat)

/-- The buffer, the bytes that appends took and the bytes that reads returned. -/
structure History where
  log : RingBufferLog
  appended : List UInt8
  returned : List UInt8

def History.call (h : History) : Call → Option History
  | .append dat size => (ringBufferAppend h.log dat size).map fun (log, ret) =>
    ⟨log, h.appended ++ if ret = 0 then bytes dat size else [], h.returned⟩
  | .read buf size => (ringBufferTruncateRead h.log buf size).map fun (log, buf, ret) =>
    ⟨log, h.appended, h.returned ++ if ret = 0 then bytes buf size else []⟩

section Queue
variable (size : Int) (stored n : Nat)

/-- What appends and reads return where `stored` of the `size` bytes are in use. -/
def appendReturns : Int := if size < n then -1 else if size - stored < n then -2 else 0

def readReturns : Int := if size < n then -1 else if stored < n then -2 else 0

/-- The buffer holds `q`. -/
structure Holds (log : RingBufferLog) (q : List UInt8) : Prop where
  pos : 0 < size
  small : size < 2 ^ 31
  capacity : log.capacity = size
  same : log.size = size
  stop : log.end = log.start + q.length
  room : q.length ≤ size
  stored : ∀ i : Nat, i < q.length → some (log.buf ((log.start + i) % size)) = q[i]?

end Queue

section
variable {size i : Int} (pos : 0 < size) (lsn : Int) (low : 0 ≤ i) (high : i < size)
include pos low high

theorem place_eq : (lsn + i) % size =
    if lsn % size + i < size then lsn % size + i else lsn % size + i - size := by
  have low' := Int.emod_nonneg lsn pos.ne'
  have high' := Int.emod_lt_of_pos lsn pos
  rw [← Int.emod_add_emod]
  split
  · next short => exact Int.emod_eq_of_lt (by omega) short
  · rw [← Int.sub_emod_right]
    exact Int.emod_eq_of_lt (by omega) (by omega)

end

section
variable {log : RingBufferLog} (h : Holds size log q) {n : Nat}
include h

theorem toInt_of_le (low : 0 ≤ i) (high : i ≤ size) : toInt i = i := by
  have small := h.small
  rw [toInt, Int.bmod]
  omega

theorem pieces_eq (low : 0 ≤ offset) (high : offset < size) (fits : n ≤ size) :
    pieces log offset (offset + n) n =
      some (min (n : Int) (size - offset), n - min (n : Int) (size - offset)) := by
  have capacity := h.capacity
  have first := toInt_of_le h (i := size - offset) (by omega) (by omega)
  rw [pieces, h.same]
  split
  · rw [min_eq_left (by omega), Int.sub_self]
    exact if_pos ⟨h.pos.ne', by omega, by omega⟩
  · rw [min_eq_right (by omega), first, toInt_of_le h (by omega) (by omega)]
    exact if_pos ⟨h.pos.ne', by omega, by omega⟩

/-- An append writes at the places behind the end, a read takes the places behind the start. -/
theorem memcpyTo_spec (src : Bytes) (lsn : Int) (fits : n ≤ size) :
    ∃ buf, memcpyToRingBuffer log src lsn n = some buf ∧ ∀ i, 0 ≤ i → i < size →
      buf ((lsn + i) % size) = if i < n then src i else log.buf ((lsn + i) % size) := by
  have small := h.small
  have low := Int.emod_nonneg lsn h.pos.ne'
  have high := Int.emod_lt_of_pos lsn h.pos
  have sum : (lsn % size + n) % 2 ^ 64 = lsn % size + n := Int.emod_eq_of_lt (by omega) (by omega)
  rw [memcpyToRingBuffer, h.same, toInt_of_le h low high.le]
  simp only [sum, pieces_eq h low high fits]
  refine ⟨_, rfl, fun i low' high' => ?_⟩
  rw [place_eq h.pos lsn low' high']
  simp only [copy]
  grind

theorem memcpyFrom_spec (dest : Bytes) (lsn : Int) (fits : n ≤ size) :
    ∃ buf, memcpyFromRingBuffer log dest lsn n = some buf ∧ ∀ i : Nat, i < n →
      buf i = log.buf ((lsn + i) % size) := by
  have low := Int.emod_nonneg lsn h.pos.ne'
  have high := Int.emod_lt_of_pos lsn h.pos
  rw [memcpyFromRingBuffer, h.same]
  simp only [pieces_eq h low high fits]
  refine ⟨_, rfl, fun i lt => ?_⟩
  rw [place_eq h.pos lsn (Int.natCast_nonneg i) (by omega)]
  simp only [copy]
  grind

theorem append_spec (dat : Bytes) (n : Nat) (returns : appendReturns size q.length n = ret) :
    ∃ log', ringBufferAppend log dat n = some (log', ret) ∧ (ret ≠ 0 → log' = log) ∧
      Holds size log' (q ++ if ret = 0 then bytes dat n else []) := by
  have stop := h.stop
  rw [ringBufferAppend, if_neg (h.same ▸ h.pos.ne'), h.same]
  rw [appendReturns] at returns
  split at returns
  · next large =>
    cases returns
    exact ⟨log, if_pos large, fun _ => rfl, by simpa using h⟩
  · next fits =>
    rw [if_neg fits]
    split at returns <;> cases returns
    · exact ⟨log, if_pos (by omega), fun _ => rfl, by simpa using h⟩
    · have total : (q ++ bytes dat n).length = q.length + n := by simp [bytes]
      obtain ⟨buf, eq, spec⟩ := memcpyTo_spec h dat log.end (n := n) (by omega)
      rw [if_neg (by omega), eq, if_pos rfl]
      refine ⟨_, rfl, (absurd rfl ·), { h with
        same := rfl, stop := by simp only; omega, room := by omega, stored := fun i lt => ?_ }⟩
      by_cases old : i < q.length
      · -- an old byte is a whole round behind the new ones
        have place : (log.start + i) % size = (log.end + (i - q.length + size)) % size := by
          rw [stop, ← Int.add_emod_right]
          congr 1
          omega
        simp only
        rw [place, spec _ (by omega) (by omega), if_neg (by omega), ← place, h.stored i old,
          getElem?_append_left old]
      · have place : log.start + i = log.end + (i - q.length : Nat) := by omega
        simp only
        rw [place, spec _ (by omega) (by omega), if_pos (by omega),
          getElem?_append_right (by omega)]
        simp [bytes, show i - q.length < n by omega]

theorem read_spec (buf : Bytes) (n : Nat) (returns : readReturns size q.length n = ret) :
    ∃ log' buf' q', ringBufferTruncateRead log buf n = some (log', buf', ret) ∧
      (ret ≠ 0 → log' = log ∧ buf' = buf) ∧ Holds size log' q' ∧
      q = (if ret = 0 then bytes buf' n else []) ++ q' := by
  have stop := h.stop
  have room := h.room
  rw [ringBufferTruncateRead, h.same]
  rw [readReturns] at returns
  split at returns
  · next large =>
    cases returns
    exact ⟨log, buf, q, if_pos large, fun _ => ⟨rfl, rfl⟩, h, rfl⟩
  · next fits =>
    rw [if_neg fits]
    split at returns <;> cases returns
    · exact ⟨log, buf, q, if_pos (by omega), fun _ => ⟨rfl, rfl⟩, h, rfl⟩
    · have left : (q.drop n).length = q.length - n := length_drop
      obtain ⟨buf', eq, spec⟩ := memcpyFrom_spec h buf (log.start % size) (n := n) (by omega)
      rw [if_neg (by omega), eq]
      refine ⟨_, _, q.drop n, rfl, (absurd rfl ·), { h with
        same := rfl, stop := by simp only; omega, room := by omega, stored := fun i lt => ?_ }, ?_⟩
      · rw [getElem?_drop, ← h.stored (n + i) (by omega), Int.natCast_add, ← Int.add_assoc]
      · have took : bytes buf' n = q.take n := by
          refine ext_getElem? fun i => ?_
          by_cases lt : i < n
          · rw [getElem?_take_of_lt lt, ← h.stored i (by omega), ← Int.emod_add_emod, ← spec i lt]
            simp [bytes, lt]
          · simp [bytes, lt]
        rw [if_pos rfl, took, take_append_drop]

end

/-- What calls leave in the buffer is what was appended and not returned. -/
theorem calls_spec (h : Holds size s.log q) (appended : s.appended = s.returned ++ q)
    (calls : List Call) : ∃ next q', calls.foldlM History.call s = some next ∧
      next.appended = next.returned ++ q' ∧ Holds size next.log q' := by
  induction calls generalizing s q with
  | nil => exact ⟨s, q, rfl, appended, h⟩
  | cons c calls ih =>
    rw [foldlM_cons]
    cases c with
    | append dat n =>
      obtain ⟨log, eq, _, after⟩ := append_spec h dat n rfl
      rw [History.call, eq]
      exact ih after (by simp [appended])
    | read buf n =>
      obtain ⟨log, buf', q', eq, _, after, took⟩ := read_spec h buf n rfl
      rw [History.call, eq]
      exact ih after (by simp [appended, ← took])

/-- A buffer of less than 2 GiB is a bounded queue of bytes. -/
theorem ring_buffer_is_byte_queue (stale : Bytes) {size : Int} (pos : 1 ≤ size)
    (small : size < 2 ^ 31) (initialOffset : Nat) (calls : List Call) :
    ∃ h stored, calls.foldlM History.call ⟨openLogRingBuffer stale size initialOffset, [], []⟩ =
        some h ∧ h.appended = h.returned ++ stored ∧
      (∀ dat n, ∃ log, ringBufferAppend h.log dat n =
        some (log, appendReturns size stored.length n) ∧
        (appendReturns size stored.length n ≠ 0 → log = h.log)) ∧
      ∀ buf n, ∃ log buf', ringBufferTruncateRead h.log buf n =
        some (log, buf', readReturns size stored.length n) ∧
        (readReturns size stored.length n ≠ 0 → log = h.log ∧ buf' = buf) := by
  have start : Holds size (openLogRingBuffer stale size initialOffset) [] :=
    ⟨pos, small, rfl, Int.emod_eq_of_lt (by omega) (by omega), (Int.add_zero _).symm,
      le_trans zero_le_one pos, nofun⟩
  obtain ⟨h, q, eq, appended, holds⟩ := calls_spec (s := ⟨_, [], []⟩) start rfl calls
  refine ⟨h, q, eq, appended, fun dat n => ?_, fun buf n => ?_⟩
  · obtain ⟨log, eq, kept, _⟩ := append_spec holds dat n rfl
    exact ⟨log, eq, kept⟩
  · obtain ⟨log, buf', _, eq, kept, _⟩ := read_spec holds buf n rfl
    exact ⟨log, buf', eq, kept⟩

theorem ring_buffer_of_nine : (1 : Int) ≤ 9 ∧ (9 : Int) < 2 ^ 31 ∧ ∃ h,
    [.append (fun _ => 7) 6, .read (fun _ => 0) 4].foldlM History.call
      ⟨openLogRingBuffer (fun _ => 0) 9 5, [], []⟩ = some h := by
  obtain ⟨h, _, eq, _⟩ := ring_buffer_is_byte_queue (fun _ => 0) (by decide : (1 : Int) ≤ 9)
    (by decide) 5 [.append (fun _ => 7) 6, .read (fun _ => 0) 4]
  exact ⟨by decide, by decide, h, eq⟩

/-- A size over 4 GiB is cut to 32 bits: two bytes are said not to fit in the buffer. -/
theorem large_buffer_refuses_append :
    (ringBufferAppend (openLogRingBuffer (fun _ => 0) (2 ^ 32 + 1) 0) (fun _ => 0) 2).map (·.2) =
      some (-1) := by
  decide

end Stasis.RingBuffer
