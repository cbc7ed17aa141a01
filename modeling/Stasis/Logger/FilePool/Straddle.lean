import Stasis.Logger.FilePool.Safety

/-!
A batch of the worker that ends inside an entry.

Without a flush under way, the worker takes 16 MB at a time. An entry that is a little
longer than that is cut by the end of the first batch, four bytes in front of its own end.
-/
namespace Stasis.FilePool
open Memory Function RingSession List

/-- A log that was just created. -/
def created : Pool where
  live := [⟨1, 0⟩]
  dead := []
  nextFile := 1
  files := fun _ => File.empty
  session := RingSession.init ringBase 1
  mem := fun _ => 0
  writers := fun _ => none
  worker := .idle
  image := fun _ => 0
  logged := []

theorem created_opened (crc32 : List UInt8 → UInt32) : Opened crc32 1 created := by
  refine ⟨rfl, rfl, rfl, pairwise_singleton _ _, ⟨_, rfl, by decide⟩, fun c mem => ?_,
    ⟨by decide, by decide⟩, fun x below i c inside => ?_, ?_⟩
  · rw [mem_singleton.mp mem]
    exact ⟨by decide, .inl rfl⟩
  · have eq := mem_singleton.mp (mem_of_getElem? inside.1)
    have low := inside.2.1
    rw [eq] at low
    exact absurd (lt_of_le_of_lt low below) (lt_irrefl 1)
  · exact ⟨fun _ mem => absurd mem not_mem_nil, fun _ mem => absurd mem not_mem_nil,
      fun _ mem => absurd mem not_mem_nil, fun _ mem => absurd mem not_mem_nil,
      fun _ mem => absurd mem not_mem_nil⟩

namespace Inv

theorem writeEntry_runs (h : Inv crc32 start pool)
    (cur : pool.writers thread = some ⟨off, entry.length, .filling⟩) :
    ∃ after, pool.writeEntry crc32 thread entry = .ok after := by
  obtain ⟨r, mem, handle, _, _, written, _⟩ := h.range cur
  have writing : r.written = false := Bool.eq_false_iff.mpr fun w => Phase.noConfusion (written.mp w)
  have held : pool.session.Writing ⟨thread, off⟩ := ⟨r, mem, handle, writing⟩
  obtain ⟨s, run, _⟩ : ∃ s, (RingOp.writeDone thread ⟨thread, off⟩).run pool.session = .ok s ∧ _ :=
    writeDone_step h.ring held
  rw [Pool.writeEntry, cur]
  simp only [if_true, Pool.callRing, run]
  exact ⟨_, rfl⟩

theorem consume_runs (h : Inv crc32 start pool) (idle : pool.worker = .idle)
    (some : 0 < pool.ring.batchSize writebackSize)
    (room : pool.ring.rf + pool.ring.batchSize writebackSize ≤ pool.ring.wt) :
    ∃ after, pool.consume = .ok after := by
  have ask : writebackSize = ringNext ∨ 0 < writebackSize := .inr (by decide)
  have nonneg : 0 ≤ pool.ring.rf := by
    have := h.ring.nonneg
    have : start ≤ pool.ring.rf := h.ring.consumed.le
    omega
  have spec := Ringbuffer.consumeBytes_spec h.ring.order.1 h.ring.rf_le_wt nonneg h.ring.opened ask
    Pool.workerThread Pool.workerThread
  rw [if_pos ⟨some, room⟩] at spec
  rw [Pool.consume, idle]
  simp only [Pool.callRing, RingOp.run, spec]
  exact ⟨_, rfl⟩

theorem finish_runs (h : Inv crc32 start pool)
    (writing : pool.worker = .writing handle len [cur] c done done) :
    ∃ after, pool.finish = .ok after := by
  have held : pool.session.Reading handle :=
    (h.worker.reading handle).mpr ⟨len, by rw [writing, Worker.batch]⟩
  obtain ⟨s, run, _⟩ : ∃ s, (RingOp.readDone Pool.workerThread handle).run pool.session = .ok s ∧ _ :=
    readDone_step h.ring held
  rw [Pool.finish, writing]
  simp only [if_true, Pool.callRing, run]
  exact ⟨_, rfl⟩

end Inv

/-- One entry of 16777212 bytes at the start of the log, of which the worker has written the
first batch. -/
structure Straddled (entry : List UInt8) (pool : Pool) : Prop where
  live : pool.live = [⟨1, 0⟩]
  logged : pool.logged = [(1, entry)]
  worker : pool.worker = .idle
  rt : pool.ring.rt = 16777217
  rf : pool.ring.rf = 16777217
  wf : pool.ring.wf = 16777221
  len : (pool.files 0).len = 16777216

/-- The same entry, before the worker has taken any of it. -/
structure Unwritten (entry : List UInt8) (pool : Pool) : Prop where
  live : pool.live = [⟨1, 0⟩]
  logged : pool.logged = [(1, entry)]
  worker : pool.worker = .idle
  rf : pool.ring.rf = 1
  wt : pool.ring.wt = 16777221
  wf : pool.ring.wf = 16777221
  size : pool.ring.requestedSize writebackSize = 16777216
  len : (pool.files 0).len = 0

section
variable (crc32 : List UInt8 → UInt32) (length : entry.length = 16777212) (lsn : lsnOf entry = 1)
include crc32 length lsn

theorem unwritten_reached : ∃ pool, Reached crc32 1 pool ∧ Unwritten entry pool := by
  obtain ⟨p1, filling, live, logged, worker, writer, reserved, rf, wf, size, len⟩ : ∃ pool,
      [.reserveSpace 1 16777212, .place 1, .flushed 1].foldlM (Pool.runAllowed crc32) created = .ok pool ∧
      pool.live = [⟨1, 0⟩] ∧ pool.logged = [] ∧ pool.worker = .idle ∧
        pool.writers 1 = some ⟨1, 16777212, .filling⟩ ∧
          pool.session.reserved = [⟨⟨1, 1⟩, 16777220, false, false⟩] ∧ pool.ring.rf = 1 ∧
            pool.ring.wf = 16777221 ∧ pool.ring.requestedSize writebackSize = 16777216 ∧
              (pool.files 0).len = 0 := ⟨_, rfl, rfl, rfl, rfl, rfl, rfl, rfl, rfl, rfl, rfl⟩
  have reached := (Reached.opened (created_opened crc32)).steps filling
  rw [← length] at writer
  have allowed : (PoolOp.writeEntry 1 entry).Allowed p1 := fun w held => by
    rw [← Option.some.inj (writer.symm.trans held)]
    exact ⟨by omega, rfl, lsn⟩
  obtain ⟨p2, write⟩ := reached.inv.writeEntry_runs writer
  have reached2 : Reached crc32 1 p2 := reached.step (.writeEntry 1 entry) allowed write
  have mark := reached2.inv.ring.writers.isMark.tight
  obtain ⟨off, s, cur, run, rfl⟩ := Pool.writeEntry_ok write
  have off_eq : off = 1 := congrArg Writer.off (Option.some.inj (cur.symm.trans writer))
  subst off_eq
  have sound : (RingOp.writeDone 1 ⟨1, 1⟩).Sound p1.session :=
    ⟨_, by rw [reserved]; exact mem_cons_self, rfl, rfl⟩
  obtain ⟨_, minWriter, wt, _, rfl⟩ := run_ok reached.inv.ring sound run
  have none : ∀ h, ¬∃ r ∈ p1.session.markWritten ⟨1, 1⟩, r.handle = h ∧ r.written = false := by
    rw [RingSession.markWritten, reserved]
    intro h ⟨r, mem, _, writing⟩
    rw [mem_singleton.mp mem] at writing
    exact Bool.noConfusion writing
  have wt_eq : wt = p1.ring.wf := mark.resolve_right fun ⟨h, held, _⟩ => none h held
  exact ⟨_, reached2, {
    live := live
    logged := by rw [logged]; rfl
    worker := worker
    rf := rf
    wt := wt_eq.trans wf
    wf := wf
    size := size
    len := len }⟩

theorem straddled_reached : ∃ pool, Reached crc32 1 pool ∧ Straddled entry pool := by
  obtain ⟨p2, reached2, before⟩ := unwritten_reached crc32 length lsn
  have size : p2.session.ring.batchSize writebackSize = 16777216 := by
    rw [Ringbuffer.batchSize, before.size]
    rfl
  have rf : p2.session.ring.rf = 1 := before.rf
  have wt : p2.session.ring.wt = 16777221 := before.wt
  -- the worker takes a batch
  obtain ⟨p3, consume⟩ := reached2.inv.consume_runs before.worker (by rw [Pool.ring]; omega)
    (by rw [Pool.ring]; omega)
  have reached3 : Reached crc32 1 p3 := reached2.step .consume trivial consume
  obtain ⟨_, s, run, eq3⟩ := Pool.consume_ok consume
  have sound : (RingOp.consumeBytes Pool.workerThread Pool.workerThread writebackSize).Sound
      p2.session := .inr (by decide)
  obtain ⟨_, _, _, readers, eq⟩ := run_ok reached2.inv.ring sound run
  have rf_s : s.ring.rf = 16777217 := by
    rw [eq]
    simp only
    omega
  have wf_s : s.ring.wf = 16777221 := by rw [eq]; exact before.wf
  rw [Pool.ring, rf, rf_s] at eq3
  -- finds its chunk
  have lookup : p3.lookup = .ok { p3 with
      worker := .writing ⟨0, 1⟩ 16777216 [⟨1, 0⟩] 0 0 16777216 } := by
    rw [Pool.lookup, eq3, before.live]
    rfl
  have reached4 : Reached crc32 1 _ := reached3.step .lookup trivial lookup
  -- writes it
  have write : Pool.pwrite { p3 with worker := .writing ⟨0, 1⟩ 16777216 [⟨1, 0⟩] 0 0 16777216 }
      16777216 = .ok { p3 with
        files := update p3.files 0 ((p3.files 0).write 0 p3.ringBytes 1 16777216)
        worker := .writing ⟨0, 1⟩ 16777216 [⟨1, 0⟩] 0 16777216 16777216 } := rfl
  have reached5 : Reached crc32 1 _ := reached4.step (.pwrite 16777216) trivial write
  -- and is done with it
  obtain ⟨p6, finish⟩ := reached5.inv.finish_runs rfl
  have reached6 : Reached crc32 1 p6 := reached5.step .finish trivial finish
  have tail := reached6.inv.worker.rt_eq reached6.inv.ring
  obtain ⟨handle, _, _, _, _, s6, writing, done, rfl⟩ := Pool.finish_ok finish
  cases writing
  have held : (RingOp.readDone Pool.workerThread ⟨0, 1⟩).Sound p3.session :=
    (reached5.inv.worker.reading ⟨0, 1⟩).mpr ⟨16777216, rfl⟩
  obtain ⟨_, _, rt, _, rfl⟩ := run_ok reached5.inv.ring held done
  have session : p3.session = s := congrArg Pool.session eq3
  refine ⟨_, reached6, {
    live := (congrArg Pool.live eq3).trans before.live
    logged := (congrArg Pool.logged eq3).trans before.logged
    worker := rfl
    rt := by rw [← rf_s, ← session]; exact tail
    rf := by rw [← rf_s, ← session]
    wf := by rw [← wf_s, ← session]
    len := ?_ }⟩
  have files : (p3.files 0).len = 0 := (congrArg (fun pool => (pool.files 0).len) eq3).trans before.len
  simp only [update_self, File.write, files]
  rfl

end

end Stasis.FilePool
