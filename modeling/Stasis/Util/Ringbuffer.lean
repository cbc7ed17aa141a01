import Stasis.Util.Min

/-!
The ring buffer.

Offsets grow without bound and are mapped into the buffer by a mask. Writers reserve
ranges at the write frontier and finish them in any order; readers take ranges at the
read frontier and finish them in any order. Every call holds the mutex of the ring, so
a call is one step, and a call that has to wait is taken again later.
-/
namespace Stasis

def ringTorn : Int := -1
def ringVolatile : Int := -2
def ringFull : Int := -3
def ringTruncated : Int := -4
def ringNext : Int := -5
def ringClosed : Int := -6

/-- Why a call does not return: it waits for another thread, or an assertion fails. -/
inductive Stop where
  | waits
  | fails
deriving DecidableEq, Repr

structure Ringbuffer where
  mask : Int
  rt : Int
  rf : Int
  wt : Int
  wf : Int
  rwt : Int
  minWriter : AggregateMin
  minReadingWriter : AggregateMin
  minReader : AggregateMin
  flush : Int
  shutdown : Bool

namespace Ringbuffer

/-- A ring of `2 ^ base` bytes. -/
def init (base : Nat) (initialOffset : Int) : Ringbuffer where
  mask := 2 ^ base - 1
  rt := initialOffset
  rf := initialOffset
  wt := initialOffset
  wf := initialOffset
  rwt := initialOffset
  minWriter := .init
  minReadingWriter := .init
  minReader := .init
  flush := 0
  shutdown := false

section
variable (ring : Ringbuffer)

/-- `x & ring->mask`, the mask being one less than a power of two. -/
def masked (x : Int) : Int := x % (ring.mask + 1)

def effectiveRt : Int := if ring.rt < ring.rwt then ring.rt else ring.rwt

def freespace : Int := ring.masked ((ring.effectiveRt - ring.wf) - 1)

/-- The place of an offset in the buffer. -/
def ptrOff (off : Int) : Int := ring.masked off

def nbReserveSpace (sz : Int) : Int × Ringbuffer :=
  if ring.freespace < sz then (ringFull, ring)
  else (ring.wf, { ring with wf := ring.wf + sz })

/-- Reserve `sz` bytes for `thread`, with the handle that `ptr` points to. -/
def reserveSpace (thread ptr : Nat) (sz : Int) : Except Stop (Int × Ringbuffer) :=
  let (ret, ring) := ring.nbReserveSpace sz
  if ret = ringFull then .error .waits
  else
    let handle : Handle := ⟨ptr, ret⟩
    .ok (ret, { ring with
      minWriter := ring.minWriter.add thread handle
      minReadingWriter := ring.minReadingWriter.add thread handle })

/-- The offset or an error, the size, and the ring. -/
def nbConsumeBytes (off sz : Int) : Int × Int × Ringbuffer :=
  let off := if off = ringNext then ring.rf else off
  let all := sz = ringNext
  let sz := if all then ring.wt - off else sz
  if all ∧ sz = 0 then (ringVolatile, sz, ring)
  else if off + sz < ring.rt then (ringTruncated, sz, ring)
  else if off < ring.rt then (ringTorn, sz, ring)
  else if off + sz > ring.wt then (ringVolatile, sz, ring)
  else (off, sz, if ring.rf < off + sz then { ring with rf := off + sz } else ring)

/-- The size that is asked for: all there is, while a flush is under way or once the ring
is shut down. -/
def requestedSize (sz : Int) : Int :=
  if ring.shutdown then ringNext else if ring.flush > ring.rf then ringNext else sz

/-- Take bytes at the read frontier: their offset and number. -/
def consumeBytes (thread ptr : Nat) (sz : Int) : Except Stop (Int × Int × Ringbuffer) :=
  if ring.shutdown ∧ ring.rt = ring.wf then .ok (ringClosed, sz, ring)
  else
    let (ret, sz, ring) := ring.nbConsumeBytes ringNext (ring.requestedSize sz)
    if ret = ringVolatile then .error .waits
    else .ok (ret, sz, { ring with minReader := ring.minReader.add thread ⟨ptr, ret⟩ })

def nbAdvanceWriteTail (off : Int) : Except Stop Ringbuffer :=
  if off ≥ ring.wt ∧ off ≤ ring.wf then .ok { ring with wt := off } else .error .fails

def nbAdvanceReadTail (off : Int) : Except Stop Ringbuffer :=
  if off ≥ ring.rt ∧ off ≤ ring.rf then .ok { ring with rt := off } else .error .fails

end

/-- The set without a handle, and its least member. -/
def removeAndCompute (min : AggregateMin) (thread : Nat) (off : Handle) :
    Except Stop (Option Handle × AggregateMin) :=
  match min.remove thread off with
  | some min => .ok min.compute
  | none => .error .fails

section
variable (ring : Ringbuffer) (thread : Nat) (off : Handle)

def writeDone : Except Stop Ringbuffer := do
  let (newWtp, minWriter) ← removeAndCompute ring.minWriter thread off
  let ring := { ring with minWriter := minWriter }
  let newWt : Int := (newWtp.map (·.lsn)).getD ring.wf
  if newWt ≠ ring.wt then ring.nbAdvanceWriteTail newWt else .ok ring

def readDone : Except Stop Ringbuffer := do
  let (newRtp, minReader) ← removeAndCompute ring.minReader thread off
  let ring := { ring with minReader := minReader }
  let newRt : Int := (newRtp.map (·.lsn)).getD ring.rf
  if newRt ≠ ring.rt then ring.nbAdvanceReadTail newRt else .ok ring

def readingWriterDone : Except Stop Ringbuffer := do
  let (newRwtp, minReadingWriter) ← removeAndCompute ring.minReadingWriter thread off
  let ring := { ring with minReadingWriter := minReadingWriter }
  let newRwt : Int := (newRwtp.map (·.lsn)).getD ring.wf
  if newRwt ≠ ring.rwt then
    if off.lsn ≥ ring.rwt ∧ off.lsn ≤ ring.wf then .ok { ring with rwt := newRwt }
    else .error .fails
  else .ok ring

end

/-- The first part of a flush: readers are told to take all there is. -/
def requestFlush (ring : Ringbuffer) (off : Int) : Ringbuffer :=
  if ring.flush < off then { ring with flush := off } else ring

theorem requestFlush_eq (ring : Ringbuffer) (off : Int) :
    ∃ flush, ring.requestFlush off = { ring with flush := flush } := by
  rw [requestFlush]
  split
  · exact ⟨_, rfl⟩
  · exact ⟨_, rfl⟩

end Ringbuffer
end Stasis
