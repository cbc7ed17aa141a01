import Stasis.Logger.FilePool.Contents

/-!
The file pool keeps its invariant.

The parts of the invariant are put together here, and each step of a thread or of the
worker is shown to keep them. What a client has to keep to is small: it fills in the entry
that it has reserved, and it truncates the log where the log is on disk, and not while the
worker still has to find the next chunk of its batch.
-/
namespace Stasis.FilePool
open Memory Function Tiling RingSession List Option

def PoolOp.Allowed (pool : Pool) : PoolOp → Prop
  | writeEntry thread entry => ∀ w ∈ pool.writers thread,
      8 ≤ entry.length ∧ entry.length = w.sz ∧ lsnOf entry = w.off
  | truncate lsn => pool.worker.isSplit = false ∧
      (∃ c ∈ pool.live.head?, c.offset ≤ lsn) ∧ lsn ≤ pool.ring.rt
  | _ => True

instance (pool : Pool) : (op : PoolOp) → Decidable (op.Allowed pool)
  | .writeEntry thread entry => inferInstanceAs (Decidable (∀ w ∈ pool.writers thread,
      8 ≤ entry.length ∧ entry.length = w.sz ∧ lsnOf entry = w.off))
  | .truncate lsn => inferInstanceAs (Decidable (pool.worker.isSplit = false ∧
      (∃ c ∈ pool.live.head?, c.offset ≤ lsn) ∧ lsn ≤ pool.ring.rt))
  | .reserveSpace _ _ | .place _ | .flushed _ | .writeEntryDone _ | .consume | .lookup | .pwrite _
  | .closeChunk | .finish | .prealloc | .requestFlush _ => inferInstanceAs (Decidable True)

structure Inv (crc32 : List UInt8 → UInt32) (start : Int) (pool : Pool) : Prop where
  ring : pool.session.Valid start
  mask : pool.ring.mask = 2 ^ ringBase - 1
  writers : WritersInv pool.session.reserved pool.writers
  chunks : ChunksInv start pool.ring.rt pool.session.reserved pool.writers pool.live pool.logged
  worker : WorkerInv pool.session pool.live pool.worker
  files : FilesInv pool.live pool.dead pool.nextFile
  stored : Stored pool.live pool.files pool.image (pool.worker.frontier pool.ring.rf)
  mem : MemInv pool.session pool.mem pool.image
  logged : LoggedInv crc32 start pool.session.reserved pool.image pool.logged

namespace Inv
variable {after : Pool} (h : Inv crc32 start pool)
include h

theorem range (held : pool.writers thread = some ⟨off, sz, phase⟩) :
    ∃ r ∈ pool.session.reserved, r.handle = ⟨thread, off⟩ ∧ r.size = sz + frameOverhead ∧
      r.applied = false ∧ (r.written = true ↔ phase = .written) ∧ r.size < targetChunkSize := by
  obtain ⟨r, mem, handle, size, applied, written⟩ := h.writers.writer thread _ held
  refine ⟨r, mem, handle, size, applied, written, ?_⟩
  have bounds := h.ring.reserved.bounds mem
  have low := h.ring.appliers.isMark.low r.off ⟨r.handle, ⟨r, mem, rfl, applied⟩, rfl⟩
  have effective := (Ringbuffer.effectiveRt_le pool.ring).2
  have room := h.ring.room
  have mask : pool.session.ring.mask = 67108863 := h.mask
  have target : targetChunkSize = 134217728 := rfl
  have window : pool.session.ring.effectiveRt ≤ r.off := le_trans effective low
  omega

omit h in
theorem reserve_sound (s : RingSession) (thread sz : Nat) :
    (RingOp.reserveSpace thread thread (sz + frameOverhead)).Sound s := by
  have overhead : frameOverhead = 8 := rfl
  rw [RingOp.Sound]
  omega

omit h in
theorem consume_sound (s : RingSession) :
    (RingOp.consumeBytes Pool.workerThread Pool.workerThread writebackSize).Sound s :=
  .inr (by decide)

theorem writeDone_sound (cur : pool.writers thread = some ⟨off, sz, .filling⟩) :
    (RingOp.writeDone thread ⟨thread, off⟩).Sound pool.session := by
  obtain ⟨r, mem, handle, _, _, written, _⟩ := h.range cur
  exact ⟨r, mem, handle, Bool.eq_false_iff.mpr fun w => Phase.noConfusion (written.mp w)⟩

theorem applied_sound (cur : pool.writers thread = some ⟨off, sz, phase⟩) :
    (RingOp.readingWriterDone thread ⟨thread, off⟩).Sound pool.session := by
  obtain ⟨r, mem, handle, _, applied, _⟩ := h.range cur
  exact ⟨r, mem, handle, applied⟩

theorem written_range (low : start ≤ x) (high : x < pool.ring.wt) :
    ∃ r ∈ pool.session.reserved, r.written = true ∧ r.off ≤ x ∧
      x < r.off + r.size := by
  have wf := lt_of_lt_of_le high h.ring.order.2.2
  obtain ⟨r, mem, inside⟩ := h.ring.reserved.covers.mp ⟨low, wf⟩
  refine ⟨r, mem, Bool.eq_true_of_not_eq_false fun writing => ?_, inside⟩
  have mark := h.ring.wt_le mem writing
  exact absurd (lt_of_lt_of_le high (le_trans mark inside.1)) (lt_irrefl x)

theorem start_le_rt : start ≤ pool.ring.rt := by
  cases h.ring.readers.isMark.tight with
  | inl eq => exact eq ▸ h.ring.consumed.le
  | inr reading =>
    obtain ⟨g, ⟨b, mem, handle, _⟩, eq⟩ := reading
    have low : start ≤ b.off := (h.ring.consumed.bounds mem).1
    rw [Batch.off, handle, eq] at low
    exact low

/-- The ring still holds the bytes that were returned to the worker and are not finished. -/
theorem ring_byte (low : pool.ring.rt ≤ x) (high : x < pool.ring.rf) :
    pool.ringBytes x = pool.image x ∧
      ∃ r ∈ pool.session.reserved, r.written = true ∧ r.off ≤ x ∧ x < r.off + r.size := by
  have wt_lt : x < pool.ring.wt := lt_of_lt_of_le high h.ring.rf_le_wt
  obtain ⟨r, mem, written, inside⟩ := h.written_range (le_trans h.start_le_rt low) wt_lt
  refine ⟨?_, r, mem, written, inside⟩
  exact h.mem r mem written x inside.1 inside.2
    (le_trans (Ringbuffer.effectiveRt_le _).1 low)

theorem requestFlush (run : (RingOp.requestFlush off).run pool.session = .ok s) :
    Inv crc32 start { pool with session := s } := by
  have sound : (RingOp.requestFlush off).Sound pool.session := trivial
  obtain ⟨valid, eq⟩ := run_ok h.ring sound run
  obtain ⟨flush, same⟩ := pool.session.ring.requestFlush_eq off
  rw [RingOp.Effect, same] at eq
  subst eq
  exact { h with ring := valid, worker := h.worker.congr (fun _ => Iff.rfl) rfl }

theorem reserveSpace (step : pool.reserveSpace thread szs = .ok after) : Inv crc32 start after := by
  obtain ⟨free, sz, s, run, rfl⟩ := Pool.reserveSpace_ok step
  obtain ⟨valid, _, _, _, rfl⟩ := run_ok h.ring (reserve_sound ..) run
  have old : ∀ r ∈ pool.session.reserved ++
      [⟨⟨thread, pool.session.ring.wf⟩, sz + frameOverhead, false, false⟩], r.written = true →
        r ∈ pool.session.reserved := fun r mem written =>
    (mem_append.mp mem).resolve_right fun new => by
      rw [mem_singleton.mp new] at written
      exact Bool.noConfusion written
  refine ⟨valid, h.mask, h.writers.reserve free, ?_, h.worker.congr (fun _ => Iff.rfl) rfl, h.files,
    h.stored, ?_, ?_⟩
  · refine h.chunks.keep le_rfl (fun r mem => ⟨r, mem_append_left _ mem, rfl⟩)
      (fun r mem out => ?_) fun _ mem => mem
    cases mem_append.mp mem with
    | inl old =>
      refine .inl ⟨r, old, fun ⟨sz, placing⟩ => out ⟨sz, ?_⟩, rfl, rfl⟩
      have other : r.handle.ptr ≠ thread := fun same =>
        absurd (placing.symm.trans (same ▸ free)) (some_ne_none _)
      exact (update_of_ne other ..).trans placing
    | inr new =>
      rw [mem_singleton.mp new] at out
      exact absurd ⟨sz, update_self ..⟩ out
  · exact h.mem.keep rfl le_rfl fun r mem written => ⟨r, old r mem written, written, rfl, rfl⟩
  · exact h.logged.keep (fun r mem written => ⟨r, mem_append_left _ mem, written, rfl, rfl⟩)
      fun r mem written => ⟨r, old r mem written, written, rfl, rfl⟩

theorem appendChunk (mem : r ∈ pool.session.reserved) (writing : r.written = false)
    (small : r.size < targetChunkSize)
    (full : ∀ c, pool.live.getLast? = some c → c.offset + targetChunkSize ≤ r.off + r.size) :
    Inv crc32 start (pool.appendChunk r.off) := by
  have behind : pool.ring.rf ≤ r.off := le_trans h.ring.rf_le_wt (h.ring.wt_le mem writing)
  have frontier := (h.worker.frontier_bounds h.ring h.chunks.sorted).2
  have chunks : ∀ fd, ChunksInv start pool.ring.rt pool.session.reserved pool.writers
      (pool.live ++ [⟨r.off, fd⟩]) pool.logged := fun fd =>
    h.chunks.append mem small full fun _ _ out => .inl out
  rw [Pool.appendChunk]
  split
  · next fd last =>
    exact { h with
      chunks := chunks fd
      worker := h.worker.concat behind
      files := h.files.recycle last r.off
      stored := h.stored.concat (le_trans frontier behind) }
  · next none =>
    have dead : pool.dead = [] := getLast?_eq_none_iff.mp none
    have files := h.files
    rw [dead] at files
    exact { h with
      chunks := chunks _
      worker := h.worker.concat behind
      files := by
        simp only [dead]
        exact files.create r.off
      stored := h.stored.concat (le_trans frontier behind) }

theorem setPhase (cur : pool.writers thread = some ⟨off, sz, phase⟩) (before : phase ≠ .written)
    (next : phase' ≠ .written) (reach : ∀ c, pool.live.getLast? = some c →
      off + (sz + frameOverhead) < c.offset + targetChunkSize) :
    Inv crc32 start (pool.setWriter thread (some ⟨off, sz, phase'⟩)) := by
  refine { h with writers := h.writers.setPhase cur before next, chunks := ?_ }
  refine h.chunks.keep le_rfl (fun r mem => ⟨r, mem, rfl⟩) (fun r mem out => ?_)
    fun _ mem => mem
  by_cases own : r.handle = ⟨thread, off⟩
  · obtain ⟨r0, mem0, handle, size, _⟩ := h.range cur
    have eq := h.ring.reserved.start_inj mem mem0 (congrArg Handle.lsn (own.trans handle.symm))
    refine .inr fun c last => ?_
    rw [eq, size, Reservation.off, handle]
    exact reach c last
  · refine .inl ⟨r, mem, fun placed => out ?_, rfl, rfl⟩
    obtain ⟨sz', placing⟩ := placed
    have other : r.handle.ptr ≠ thread := fun same => own (by
      rw [same, cur] at placing
      exact Handle.ext same (congrArg Writer.off (some.inj placing)).symm)
    exact ⟨sz', (update_of_ne other ..).trans placing⟩

theorem place (step : pool.place thread = .ok after) : Inv crc32 start after := by
  obtain ⟨off, sz, placed, cur, ensured, rest⟩ := Pool.place_ok step
  obtain ⟨r, mem, handle, size, _, written, small⟩ := h.range cur
  have writing : r.written = false := Bool.eq_false_iff.mpr fun w => Phase.noConfusion (written.mp w)
  have start_eq : r.off = off := congrArg Handle.lsn handle
  have placed_inv : Inv crc32 start placed ∧ placed.writers = pool.writers ∧
      ∀ c, placed.live.getLast? = some c →
        off + (sz + frameOverhead) < c.offset + targetChunkSize := by
    cases Pool.ensureChunk_ok ensured with
    | inl there =>
      obtain ⟨i, found, rfl⟩ := there
      refine ⟨h, rfl, fun c last => ?_⟩
      rw [← Int.add_assoc]
      exact getChunkFromOffset_lt h.chunks.sorted last found
    | inr appended =>
      obtain ⟨missing, rfl⟩ := appended
      obtain ⟨first, head, low⟩ := h.chunks.first
      have rt_le := le_trans h.ring.order.1 h.ring.rf_le_wt
      have wt_le := h.ring.wt_le mem writing
      have pos := (h.ring.reserved.bounds mem).2.1
      have full : ∀ c, pool.live.getLast? = some c →
          c.offset + targetChunkSize ≤ r.off + r.size := fun c last => by
        have far := getChunkFromOffset_eq_none head last missing
        have low : first.offset ≤ pool.session.ring.rt := low
        rw [start_eq] at wt_le ⊢
        omega
      rw [← start_eq]
      refine ⟨h.appendChunk mem writing small full, ?_, fun c last => ?_⟩
      · rw [Pool.appendChunk]
        split <;> rfl
      · have eq : c.offset = r.off := by
          rw [Pool.appendChunk] at last
          split at last
          · rw [getLast?_concat] at last
            rw [← some.inj last]
          · rw [getLast?_concat] at last
            rw [← some.inj last]
        rw [eq, ← size]
        omega
  obtain ⟨inv, same, reach⟩ := placed_inv
  rw [← same] at cur
  cases rest with
  | inl low =>
    obtain ⟨_, s, run, rfl⟩ := low
    exact (inv.requestFlush run).setPhase cur (by simp) (by simp) reach
  | inr high =>
    obtain ⟨_, rfl⟩ := high
    exact inv.setPhase cur (by simp) (by simp) reach

theorem flushed (step : pool.flushed thread = .ok after) : Inv crc32 start after := by
  obtain ⟨off, sz, barrier, cur, _, rfl⟩ := Pool.flushed_ok step
  refine h.setPhase cur (by simp) (by simp) fun c last => ?_
  obtain ⟨r, mem, handle, size, _⟩ := h.range cur
  obtain ⟨c', last', _, below⟩ := h.chunks.last
  have placed : ¬Placing pool.writers r := fun ⟨sz', placing⟩ => by
    rw [handle, cur] at placing
    exact Phase.noConfusion (congrArg Writer.phase (some.inj placing))
  have end_lt := below r mem placed
  rw [size, Reservation.off, handle] at end_lt
  rw [some.inj (last.symm.trans last')]
  exact end_lt

theorem writeEntry (allowed : (PoolOp.writeEntry thread entry).Allowed pool)
    (step : pool.writeEntry crc32 thread entry = .ok after) : Inv crc32 start after := by
  obtain ⟨off, s, cur, run, rfl⟩ := Pool.writeEntry_ok step
  obtain ⟨r, mem, handle, size, applied, written, small⟩ := h.range cur
  have writing : r.written = false := Bool.eq_false_iff.mpr fun w => Phase.noConfusion (written.mp w)
  obtain ⟨valid, minWriter, wt, up, rfl⟩ := run_ok h.ring (h.writeDone_sound cur) run
  have start_eq : r.off = off := congrArg Handle.lsn handle
  obtain ⟨long, _, lsn⟩ := allowed _ cur
  have length : ((frame crc32 entry).length : Int) = r.size := by
    rw [length_frame, size, Int.natCast_add, Int.add_comm]
  have short : entry.length < 2 ^ 32 := by
    have target : targetChunkSize = 134217728 := rfl
    omega
  have frontier := (h.worker.frontier_bounds h.ring h.chunks.sorted).2
  have rf_le : pool.ring.rf ≤ r.off := le_trans h.ring.rf_le_wt (h.ring.wt_le mem writing)
  have marked : ∀ r' ∈ pool.session.markWritten ⟨thread, off⟩, ∃ r0 ∈ pool.session.reserved,
      (r'.written = true → r0.written = true ∨ r0 = r) ∧ r'.handle = r0.handle ∧
        r'.size = r0.size := by
    intro r' mem'
    obtain ⟨r0, mem0, rfl⟩ := mem_map.mp mem'
    refine ⟨r0, mem0, ?_⟩
    split
    · next own =>
      have same := congrArg Handle.lsn (own.trans handle.symm)
      exact ⟨fun _ => .inr (h.ring.reserved.start_inj mem0 mem same), rfl, rfl⟩
    · exact ⟨.inl, rfl, rfl⟩
  refine ⟨valid, h.mask, h.writers.setWritten cur, ?_, h.worker.congr (fun _ => Iff.rfl) rfl,
    h.files, ?_, ?_, ?_⟩
  · refine h.chunks.keep le_rfl (fun r0 mem0 => ?_) (fun r' mem' out => ?_)
      fun e mem => mem_append_left _ mem
    · refine ⟨_, mem_map_of_mem mem0, ?_⟩
      split <;> rfl
    · obtain ⟨r0, mem0, _, same, size0⟩ := marked r' mem'
      refine .inl ⟨r0, mem0, fun ⟨sz, placing⟩ => out ⟨sz, ?_⟩, congrArg Handle.lsn same, size0⟩
      have other : r0.handle.ptr ≠ thread := fun same => by
        rw [same, cur] at placing
        exact Phase.noConfusion (congrArg Writer.phase (some.inj placing))
      rw [Reservation.off, same]
      exact (update_of_ne other ..).trans placing
  · intro x below i c inside
    obtain ⟨short, same⟩ := h.stored x below i c inside
    refine ⟨short, same.trans (storeList_of_outside _ (.inl ?_)).symm⟩
    rw [← start_eq]
    exact lt_of_lt_of_le below (le_trans frontier rf_le)
  · intro r' mem' written' x low high window
    obtain ⟨r0, mem0, either, same, size0⟩ := marked r' mem'
    rw [Reservation.off, same] at low high
    rw [size0] at high
    rw [← start_eq]
    exact h.mem.store h.ring mem applied length window mem0 low high (either written')
  · rw [← start_eq] at lsn ⊢
    have logged := h.logged.write h.ring mem writing size ⟨long, short, lsn⟩
    rw [handle, ← start_eq] at logged
    exact logged

theorem writeEntryDone (step : pool.writeEntryDone thread = .ok after) : Inv crc32 start after := by
  obtain ⟨off, sz, s, cur, run, rfl⟩ := Pool.writeEntryDone_ok step
  obtain ⟨valid, readingWriters, rwt, up, rfl⟩ := run_ok h.ring (h.applied_sound cur) run
  have marked : ∀ r' ∈ pool.session.markApplied ⟨thread, off⟩, ∃ r0 ∈ pool.session.reserved,
      r'.written = r0.written ∧ r'.handle = r0.handle ∧ r'.size = r0.size := by
    intro r' mem'
    obtain ⟨r0, mem0, rfl⟩ := mem_map.mp mem'
    refine ⟨r0, mem0, ?_⟩
    split <;> exact ⟨rfl, rfl, rfl⟩
  have kept : ∀ r0 ∈ pool.session.reserved, ∃ r' ∈ pool.session.markApplied ⟨thread, off⟩,
      r'.written = r0.written ∧ r'.handle = r0.handle ∧ r'.size = r0.size := by
    intro r0 mem0
    refine ⟨_, mem_map_of_mem mem0, ?_⟩
    split <;> exact ⟨rfl, rfl, rfl⟩
  refine ⟨valid, h.mask, h.writers.setDone cur ?_, ?_, h.worker.congr (fun _ => Iff.rfl) rfl,
    h.files, h.stored, ?_, ?_⟩
  · exact fun a ha b hb eq => h.ring.reserved.start_inj ha hb (congrArg Handle.lsn eq)
  · refine h.chunks.keep le_rfl (fun r0 mem0 => ?_) (fun r' mem' out => ?_)
      fun _ mem => mem
    · obtain ⟨r', mem', _, same, _⟩ := kept r0 mem0
      exact ⟨r', mem', congrArg Handle.lsn same⟩
    · obtain ⟨r0, mem0, _, same, size⟩ := marked r' mem'
      refine .inl ⟨r0, mem0, fun ⟨sz, placing⟩ => out ⟨sz, ?_⟩, congrArg Handle.lsn same, size⟩
      have other : r0.handle.ptr ≠ thread := fun same => by
        rw [same, cur] at placing
        exact Phase.noConfusion (congrArg Writer.phase (some.inj placing))
      rw [Reservation.off, same]
      exact (update_of_ne other ..).trans placing
  · refine h.mem.keep rfl ?_ fun r' mem' written => ?_
    · rw [Ringbuffer.effectiveRt_eq, Ringbuffer.effectiveRt_eq]
      exact min_le_min le_rfl up
    · obtain ⟨r0, mem0, same, handle, size⟩ := marked r' mem'
      exact ⟨r0, mem0, same.symm.trans written, congrArg Handle.lsn handle, size⟩
  · refine h.logged.keep (fun r0 mem0 written => ?_) fun r' mem' written => ?_
    · obtain ⟨r', mem', same, handle, size⟩ := kept r0 mem0
      exact ⟨r', mem', same.trans written, congrArg Handle.lsn handle, size⟩
    · obtain ⟨r0, mem0, same, handle, size⟩ := marked r' mem'
      exact ⟨r0, mem0, same.symm.trans written, congrArg Handle.lsn handle, size⟩

theorem consume (step : pool.consume = .ok after) : Inv crc32 start after := by
  obtain ⟨idle, s, run, rfl⟩ := Pool.consume_ok step
  obtain ⟨valid, pos, _, readers, rfl⟩ := run_ok h.ring (consume_sound _) run
  have stored := h.stored
  have reading := h.worker.reading
  rw [idle] at stored reading
  refine { h with ring := valid, worker := ⟨fun g => ?_, fun g len eq => ?_, ?_⟩, stored := stored }
  · refine (exists_concat rfl).trans ?_
    rw [← RingSession.Reading, reading]
    simp only [Worker.batch, reduceCtorEq, exists_false, or_false, some.injEq, Prod.mk.injEq]
    exact ⟨fun eq => ⟨_, eq.symm, rfl⟩, fun ⟨_, eq, _⟩ => eq.symm⟩
  · have eq := Prod.mk.inj (some.inj eq)
    rw [← eq.1, ← eq.2]
    simp only [Pool.ring]
    exact ⟨by omega, by omega⟩
  · intro _ _ _ _ _ _ eq
    exact Worker.noConfusion eq

theorem lookup (step : pool.lookup = .ok after) : Inv crc32 start after := by
  obtain ⟨handle, len, chunk, endchunk, limit, taken, first, last, found, rfl⟩ :=
    Pool.lookup_ok step
  have batch : pool.worker.batch = some (handle, len) := by rw [taken, Worker.batch]
  obtain ⟨pos, eq⟩ := h.worker.batch handle len batch
  have reading := h.worker.reading
  have stored := h.stored
  rw [taken] at reading stored
  refine { h with
    worker := ⟨reading, fun g len' same => ?_, fun _ _ _ _ _ _ same => ?_⟩, stored := ?_ }
  · exact h.worker.batch g len' (batch.trans same)
  · cases same
    exact ⟨chunk, endchunk, fun _ => rfl, WritingInv.lookup pos eq h.chunks.sorted first last found⟩
  · rw [Worker.frontier, Int.add_zero]
    exact stored

theorem pwrite (step : pool.pwrite n = .ok after) : Inv crc32 start after := by
  obtain ⟨handle, len, cur, rest, c, done, limit, writing, pos, fits, rfl⟩ := Pool.pwrite_ok step
  obtain ⟨i, e, index, inv⟩ := h.worker.writing _ _ _ _ _ _ writing
  obtain ⟨cur', rest', eq, at_c, _⟩ := inv.head
  rw [(List.cons.inj eq).1.symm] at at_c
  have reading := h.worker.reading
  have batch := h.worker.batch
  have stored := h.stored
  have bounds := h.worker.frontier_bounds h.ring h.chunks.sorted
  rw [writing] at reading batch stored bounds
  refine { h with
    worker := ⟨reading, batch, fun _ _ _ _ _ _ same => ?_⟩, stored := ?_ }
  · cases same
    exact ⟨i, e, index, inv.advance pos fits⟩
  · refine stored.write h.files h.chunks.sorted at_c (by rw [Worker.frontier, Worker.frontier]; omega)
      fun x low high => ?_
    rw [Worker.frontier] at low high bounds
    obtain ⟨inside, below⟩ := inv.inChunk h.chunks.sorted at_c low (by omega)
    refine ⟨inside, ?_⟩
    have place : handle.lsn + done + (x - Worker.frontier pool.ring.rf
        (.writing handle len (cur :: rest) c done limit)) = x := by rw [Worker.frontier]; omega
    rw [place]
    exact (h.ring_byte (le_trans bounds.1 low) below).1

theorem closeChunk (step : pool.closeChunk = .ok after) : Inv crc32 start after := by
  obtain ⟨handle, len, cur, next, rest, c, done, limit, writing, found, rfl⟩ :=
    Pool.closeChunk_ok step
  obtain ⟨i, e, index, inv⟩ := h.worker.writing _ _ _ _ _ _ writing
  obtain rfl := index nofun
  obtain ⟨cur', rest', eq, at_c, _⟩ := inv.head
  rw [(List.cons.inj eq).1.symm] at at_c
  have reading := h.worker.reading
  have batch := h.worker.batch
  have stored := h.stored
  rw [writing] at reading batch stored
  refine { h with
    worker := ⟨reading, batch, fun _ _ _ _ _ _ same => ?_⟩, stored := ?_ }
  · cases same
    exact ⟨i + 1, e, fun _ => rfl, (inv.next h.chunks.sorted (batch handle len rfl).2 found).2.2⟩
  · refine stored.write h.files h.chunks.sorted at_c (by rw [Worker.frontier, Worker.frontier]; omega)
      fun x low high => ?_
    exact absurd (lt_of_lt_of_le high low) (lt_irrefl x)

theorem finish (step : pool.finish = .ok after) : Inv crc32 start after := by
  obtain ⟨handle, len, cur, c, done, s, writing, run, rfl⟩ := Pool.finish_ok step
  obtain ⟨_, e, _, inv⟩ := h.worker.writing _ _ _ _ _ _ writing
  obtain ⟨cur', rest', eq, _, last⟩ := inv.head
  have outer := inv.outer (last.mp (List.cons.inj eq).2.symm)
  have reading := h.worker.reading
  have stored := h.stored
  rw [writing] at reading stored
  have sound : (RingOp.readDone Pool.workerThread handle).Sound pool.session :=
    (reading handle).mpr ⟨len, rfl⟩
  obtain ⟨valid, readers, rt, up, rfl⟩ := run_ok h.ring sound run
  refine ⟨valid, h.mask, h.writers, ?_, ⟨fun g => ?_, ?_, ?_⟩, h.files, ?_, ?_, h.logged⟩
  · exact h.chunks.keep up (fun r mem => ⟨r, mem, rfl⟩)
      (fun r mem out => .inl ⟨r, mem, out, rfl, rfl⟩) fun _ mem => mem
  · refine (exists_marked fun _ => rfl).trans (iff_of_false (fun ⟨held, ne⟩ => ?_) ?_)
    · obtain ⟨len', same⟩ := (reading g).mp held
      exact ne (Prod.mk.inj (some.inj same)).1.symm
    · intro ⟨_, batch⟩
      cases batch
  · intro _ _ batch
    cases batch
  · exact fun _ _ _ _ _ _ idle => Worker.noConfusion idle
  · have frontier : Worker.frontier pool.ring.rf (.writing handle len [cur] c done done) =
        pool.ring.rf := outer
    rw [frontier] at stored
    exact stored
  · refine h.mem.keep rfl ?_ fun r mem written => ⟨r, mem, written, rfl, rfl⟩
    rw [Ringbuffer.effectiveRt_eq, Ringbuffer.effectiveRt_eq]
    exact min_le_min up le_rfl

theorem truncate (allowed : (PoolOp.truncate lsn).Allowed pool)
    (step : pool.truncate lsn = .ok after) : Inv crc32 start after := by
  obtain ⟨chunk, found, rfl⟩ := Pool.truncate_ok step
  obtain ⟨c, at_chunk, low, _⟩ := getChunkFromOffset_inChunk found
  exact { h with
    chunks := h.chunks.truncate at_chunk (le_trans low allowed.2.2)
    worker := h.worker.drop h.ring h.chunks.sorted allowed.1 at_chunk (le_trans low allowed.2.2)
    files := h.files.truncate chunk
    stored := h.stored.truncate chunk }

theorem preallocFile : Inv crc32 start pool.preallocFile := by
  refine { h with files := h.files.prealloc, stored := fun x below i c inside => ?_ }
  have own := h.files.below c.fd (mem_append_left _ (mem_map_of_mem (mem_of_getElem? inside.1)))
  have same : pool.preallocFile.files c.fd = pool.files c.fd := update_of_ne (ne_of_lt own) ..
  rw [same]
  exact h.stored x below i c inside

theorem step {op : PoolOp} (allowed : op.Allowed pool) (run : op.run crc32 pool = .ok after) :
    Inv crc32 start after := by
  cases op with
  | reserveSpace thread szs => exact h.reserveSpace run
  | place thread => exact h.place run
  | flushed thread => exact h.flushed run
  | writeEntry thread entry => exact h.writeEntry allowed run
  | writeEntryDone thread => exact h.writeEntryDone run
  | consume => exact h.consume run
  | lookup => exact h.lookup run
  | pwrite n => exact h.pwrite run
  | closeChunk => exact h.closeChunk run
  | finish => exact h.finish run
  | truncate lsn => exact h.truncate allowed run
  | prealloc => exact Except.ok.inj run ▸ h.preallocFile
  | requestFlush off =>
    obtain ⟨s, flush, rfl⟩ := Pool.callRing_ok run
    exact h.requestFlush flush

end Inv
end Stasis.FilePool
