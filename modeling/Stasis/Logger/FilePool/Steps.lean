import Stasis.Logger.FilePool.Chunks
import Stasis.Library.Fallible

/-!
What a step of the file pool does.

For each step, the state it starts from and the state it leads to, as far as other modules
need them; they never unfold the step itself.
-/
namespace Stasis.FilePool
open Memory Fallible Function

namespace Pool
variable {pool : Pool}

theorem callRing_ok (h : pool.callRing op = .ok after) :
    ∃ s, op.run pool.session = .ok s ∧ after = { pool with session := s } := by
  obtain ⟨s, run, eq⟩ := bind_eq_ok.mp h
  exact ⟨s, run, (Except.ok.inj eq).symm⟩

theorem reserveSpace_ok (h : pool.reserveSpace thread szs = .ok after) :
    pool.writers thread = none ∧
      ∃ (sz : Nat) (s : RingSession),
        (RingOp.reserveSpace thread thread (sz + frameOverhead)).run pool.session = .ok s ∧
        after = { pool with
          session := s
          writers := update pool.writers thread (some ⟨pool.ring.wf, sz, .placing⟩) } := by
  rw [reserveSpace] at h
  split at h
  · cases h
  · next free =>
    obtain ⟨mid, call, eq⟩ := bind_eq_ok.mp h
    obtain ⟨s, run, rfl⟩ := callRing_ok call
    exact ⟨free, _, s, run, (Except.ok.inj eq).symm⟩

theorem ensureChunk_ok (h : pool.ensureChunk off sz = .ok after) :
    (∃ i, getChunkFromOffset pool.live (off + sz + frameOverhead) = some i ∧ after = pool) ∨
      (getChunkFromOffset pool.live (off + sz + frameOverhead) = none ∧
        after = pool.appendChunk off) := by
  rw [ensureChunk] at h
  split at h
  · next i found => exact .inl ⟨i, found, (Except.ok.inj h).symm⟩
  · next missing =>
    simp only at h
    split at h
    · exact .inr ⟨missing, (Except.ok.inj h).symm⟩
    · cases h

theorem place_ok (h : pool.place thread = .ok after) :
    ∃ off sz placed, pool.writers thread = some ⟨off, sz, .placing⟩ ∧
      pool.ensureChunk off sz = .ok placed ∧
      ((placed.barrier < off ∧
          ∃ s, (RingOp.requestFlush placed.barrier).run placed.session = .ok s ∧
            after = { placed with
              session := s
              writers := update placed.writers thread
                (some ⟨off, sz, .flushing placed.barrier⟩) }) ∨
        (off ≤ placed.barrier ∧ after = placed.setWriter thread (some ⟨off, sz, .filling⟩))) := by
  rw [place] at h
  split at h
  · next off sz writer =>
    obtain ⟨placed, ensured, rest⟩ := bind_eq_ok.mp h
    refine ⟨off, sz, placed, writer, ensured, ?_⟩
    split at rest
    · next low =>
      obtain ⟨mid, call, eq⟩ := bind_eq_ok.mp rest
      obtain ⟨s, run, rfl⟩ := callRing_ok call
      exact .inl ⟨low, s, run, (Except.ok.inj eq).symm⟩
    · next high => exact .inr ⟨not_lt.mp high, (Except.ok.inj rest).symm⟩
  · cases h

theorem flushed_ok (h : pool.flushed thread = .ok after) :
    ∃ off sz barrier, pool.writers thread = some ⟨off, sz, .flushing barrier⟩ ∧
      barrier ≤ pool.ring.rt ∧ after = pool.setWriter thread (some ⟨off, sz, .filling⟩) := by
  rw [flushed] at h
  split at h
  · next off sz barrier writer =>
    split at h
    · next low => exact ⟨off, sz, barrier, writer, low, (Except.ok.inj h).symm⟩
    · cases h
  · cases h

theorem writeEntry_ok (h : pool.writeEntry crc32 thread entry = .ok after) :
    ∃ off s, pool.writers thread = some ⟨off, entry.length, .filling⟩ ∧
      (RingOp.writeDone thread ⟨thread, off⟩).run pool.session = .ok s ∧
      after = { pool with
        session := s
        writers := update pool.writers thread (some ⟨off, entry.length, .written⟩)
        mem := storeRing pool.ring pool.mem off (frame crc32 entry)
        image := storeList pool.image off (frame crc32 entry)
        logged := pool.logged ++ [(off, entry)] } := by
  rw [writeEntry] at h
  split at h
  · next off sz writer =>
    split at h
    · next eq =>
      subst eq
      obtain ⟨mid, call, eq⟩ := bind_eq_ok.mp h
      obtain ⟨s, run, rfl⟩ := callRing_ok call
      exact ⟨off, s, writer, run, (Except.ok.inj eq).symm⟩
    · cases h
  · cases h

theorem writeEntryDone_ok (h : pool.writeEntryDone thread = .ok after) :
    ∃ off sz s, pool.writers thread = some ⟨off, sz, .written⟩ ∧
      (RingOp.readingWriterDone thread ⟨thread, off⟩).run pool.session = .ok s ∧
      after = { pool with
        session := s, writers := update pool.writers thread none } := by
  rw [writeEntryDone] at h
  split at h
  · next off sz writer =>
    obtain ⟨mid, call, eq⟩ := bind_eq_ok.mp h
    obtain ⟨s, run, rfl⟩ := callRing_ok call
    exact ⟨off, sz, s, writer, run, (Except.ok.inj eq).symm⟩
  · cases h

theorem consume_ok (h : pool.consume = .ok after) :
    pool.worker = .idle ∧
      ∃ s, (RingOp.consumeBytes workerThread workerThread writebackSize).run pool.session = .ok s ∧
        after = { pool with
          session := s
          worker := .taken ⟨workerThread, pool.ring.rf⟩ (s.ring.rf - pool.ring.rf) } := by
  rw [consume] at h
  split at h
  · next idle =>
    obtain ⟨mid, call, eq⟩ := bind_eq_ok.mp h
    obtain ⟨s, run, rfl⟩ := callRing_ok call
    exact ⟨idle, s, run, (Except.ok.inj eq).symm⟩
  · cases h

theorem lookup_ok (h : pool.lookup = .ok after) :
    ∃ handle len chunk endchunk limit, pool.worker = .taken handle len ∧
      getChunkFromOffset pool.live handle.lsn = some chunk ∧
      getChunkFromOffset pool.live (handle.lsn + len) = some endchunk ∧
      chunkLimit pool.live handle.lsn len chunk
        ((pool.live.drop chunk).take (1 + endchunk - chunk)).tail = some limit ∧
      after = { pool with
        worker := .writing handle len ((pool.live.drop chunk).take (1 + endchunk - chunk)) chunk 0
          limit } := by
  rw [lookup] at h
  split at h
  · next handle len taken =>
    split at h
    · next chunk endchunk first last =>
      simp only at h
      split at h
      · next limit found =>
        exact ⟨handle, len, chunk, endchunk, limit, taken, first, last, found,
          (Except.ok.inj h).symm⟩
      · cases h
    · cases h
  · cases h

theorem pwrite_ok (h : pool.pwrite n = .ok after) :
    ∃ handle len cur rest c done limit,
      pool.worker = .writing handle len (cur :: rest) c done limit ∧ 0 < n ∧ n ≤ limit - done ∧
      after = { pool with
        files := update pool.files cur.fd
          ((pool.files cur.fd).write (handle.lsn + done - cur.offset) pool.ringBytes
            (handle.lsn + done) n)
        worker := .writing handle len (cur :: rest) c (done + n) limit } := by
  rw [pwrite] at h
  split at h
  · next handle len cur rest c done limit writing =>
    split at h
    · next fits =>
      exact ⟨handle, len, cur, rest, c, done, limit, writing, fits.1, fits.2,
        (Except.ok.inj h).symm⟩
    · cases h
  · cases h

theorem closeChunk_ok (h : pool.closeChunk = .ok after) :
    ∃ handle len cur next rest c done limit,
      pool.worker = .writing handle len (cur :: next :: rest) c done done ∧
      chunkLimit pool.live handle.lsn len (c + 1) rest = some limit ∧
      after = { pool with
        files := update pool.files cur.fd
          ((pool.files cur.fd).write (handle.lsn + done - cur.offset) (fun _ => 0) 0 4)
        worker := .writing handle len (next :: rest) (c + 1) done limit } := by
  rw [closeChunk] at h
  split at h
  · next handle len cur next rest c done limit writing =>
    split at h
    · next eq =>
      subst eq
      simp only at h
      split at h
      · next limit found =>
        exact ⟨handle, len, cur, next, rest, c, done, limit, writing, found,
          (Except.ok.inj h).symm⟩
      · cases h
    · cases h
  · cases h

theorem finish_ok (h : pool.finish = .ok after) :
    ∃ handle len cur c done s, pool.worker = .writing handle len [cur] c done done ∧
      (RingOp.readDone workerThread handle).run pool.session = .ok s ∧
      after = { pool with session := s, worker := .idle } := by
  rw [finish] at h
  split at h
  · next handle len cur c done limit writing =>
    split at h
    · next eq =>
      subst eq
      obtain ⟨mid, call, eq⟩ := bind_eq_ok.mp h
      obtain ⟨s, run, rfl⟩ := callRing_ok call
      exact ⟨handle, len, cur, c, done, s, writing, run, (Except.ok.inj eq).symm⟩
    · cases h
  · cases h

theorem truncate_ok (h : pool.truncate lsn = .ok after) :
    ∃ chunk, getChunkFromOffset pool.live lsn = some chunk ∧
      after = { pool with
        live := pool.live.drop chunk
        dead := pool.dead ++ (pool.live.take chunk).map (·.fd) } := by
  rw [truncate] at h
  split at h
  · next chunk found => exact ⟨chunk, found, (Except.ok.inj h).symm⟩
  · cases h

end Pool
end Stasis.FilePool
