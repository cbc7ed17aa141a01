import Stasis.Logger.FilePool.Invariant

/-!
Placement of entries in the chunks of the file pool.

From the invariant: no assertion fails, and every entry lies in one chunk, which is the
one that the lookup names and the one whose file the worker writes it to. Threads reserve
their ranges first and look for a chunk later, so that a later range may append the chunk
while an earlier one has not been placed.
-/
namespace Stasis.FilePool
open Memory Function Tiling RingSession Fallible List

namespace Inv
variable {pool : Pool}

section
variable (h : Inv crc32 start pool)
include h

theorem not_placing (mem : r ∈ pool.session.reserved) (written : r.written = true) :
    ¬Placing pool.writers r := by
  intro ⟨sz, placing⟩
  obtain ⟨r0, mem0, handle, _, _, phase, _⟩ := h.range placing
  rw [h.ring.reserved.start_inj mem0 mem (congrArg Handle.lsn handle)] at phase
  exact Phase.noConfusion (phase.mp written)

/-- The bytes that were returned to the worker end in front of the end of the last chunk. -/
theorem rf_lt (hl : pool.live.getLast? = some last) :
    pool.ring.rf < last.offset + targetChunkSize := by
  obtain ⟨c, hc, far, below⟩ := h.chunks.last
  rw [Option.some.inj (hl.symm.trans hc)]
  have first : start ≤ pool.ring.rf := le_trans h.start_le_rt h.ring.order.1
  have wt : pool.ring.rf ≤ pool.ring.wt := h.ring.rf_le_wt
  by_cases none : pool.ring.rf = start
  · exact none ▸ far
  · obtain ⟨r, mem, written, inside⟩ :=
      h.written_range (x := pool.ring.rf - 1) (by omega) (by omega)
    have := below r mem (h.not_placing mem written)
    omega

theorem getChunk (low : ∀ c, pool.live.head? = some c → c.offset ≤ x) (high : x ≤ pool.ring.rf) :
    ∃ i c, getChunkFromOffset pool.live x = some i ∧ InChunk pool.live i c x := by
  obtain ⟨first, hf, _⟩ := h.chunks.first
  obtain ⟨last, hl, _⟩ := h.chunks.last
  exact getChunkFromOffset_spec hf hl (low first hf) (lt_of_le_of_lt high (h.rf_lt hl))

theorem callRing_ne_fails (sound : op.Sound pool.session) : pool.callRing op ≠ .error .fails := by
  intro fails
  cases bind_eq_error.mp fails with
  | inl ring =>
    cases run_valid h.ring sound with
    | inl next =>
      obtain ⟨s, run, _⟩ := next
      cases ring.symm.trans run
    | inr waits => cases ring.symm.trans waits
  | inr rest =>
    obtain ⟨_, _, rest⟩ := rest
    cases rest

theorem callRing_then_ne_fails (sound : op.Sound pool.session) (f : Pool → Pool) :
    (pool.callRing op >>= fun after => .ok (f after)) ≠ .error .fails := by
  intro fails
  cases bind_eq_error.mp fails with
  | inl ring => exact h.callRing_ne_fails sound ring
  | inr rest =>
    obtain ⟨_, _, rest⟩ := rest
    cases rest

end

theorem ensureChunk_ne_fails (off : Int) (sz : Nat) : pool.ensureChunk off sz ≠ .error .fails := by
  rw [Pool.ensureChunk]
  split
  · simp
  · have found : getChunkFromOffset (pool.appendChunk off).live off =
        some ((pool.appendChunk off).live.length - 1) := by
      rw [Pool.appendChunk]
      split
      · exact getChunkFromOffset_concat _ _
      · exact getChunkFromOffset_concat _ _
    simp only [found, if_true]
    simp

theorem lookup_ne_fails (h : Inv crc32 start pool) : pool.lookup ≠ .error .fails := by
  rw [Pool.lookup]
  split
  · next handle len taken =>
    have batch : pool.worker.batch = some (handle, len) := by rw [taken, Worker.batch]
    obtain ⟨pos, eq⟩ := h.worker.batch handle len batch
    have tail : pool.ring.rt = _ := h.worker.rt_eq h.ring
    rw [taken] at tail
    have head : ∀ c, pool.live.head? = some c → c.offset ≤ handle.lsn := fun c hc => by
      obtain ⟨c', hc', low⟩ := h.chunks.first
      rw [Option.some.inj (hc.symm.trans hc')]
      exact le_trans low (Int.le_of_eq tail)
    have eq : handle.lsn + len = pool.ring.rf := eq
    obtain ⟨i, a, first, inside⟩ := h.getChunk head (by omega)
    obtain ⟨j, b, last, inside'⟩ := h.getChunk (x := handle.lsn + len)
      (fun c hc => by have := head c hc; omega) (Int.le_of_eq eq)
    rw [first, last]
    simp only
    cases rest : ((pool.live.drop i).take (1 + j - i)).tail with
    | nil =>
      intro fails
      cases fails
    | cons d l =>
      have length := congrArg List.length rest
      rw [length_tail, length_take, length_drop, length_cons] at length
      have inside : i + 1 < pool.live.length := by omega
      rw [Pool.chunkLimit, getElem?_eq_getElem inside]
      simp
  · simp

theorem closeChunk_ne_fails (h : Inv crc32 start pool) : pool.closeChunk ≠ .error .fails := by
  rw [Pool.closeChunk]
  split
  · next handle len cur next rest c done limit writing =>
    obtain ⟨i, e, index, inv⟩ := h.worker.writing _ _ _ _ _ _ writing
    obtain rfl := index (cons_ne_nil _ _)
    split
    · cases rest with
      | nil =>
        intro fails
        cases fails
      | cons d l =>
        have length := congrArg List.length inv.chunks
        rw [length_take, length_drop] at length
        simp only [length_cons] at length
        have inside : i + 1 + 1 < pool.live.length := by omega
        rw [Pool.chunkLimit, getElem?_eq_getElem inside]
        simp
    · simp
  · simp

theorem place_ne_fails : pool.place thread ≠ .error .fails := by
  rw [Pool.place]
  split
  · next off sz cur =>
    intro fails
    cases bind_eq_error.mp fails with
    | inl ensure => exact ensureChunk_ne_fails off sz ensure
    | inr rest =>
      obtain ⟨placed, ensured, rest⟩ := rest
      split at rest <;> cases rest
  · simp

section
variable (h : Inv crc32 start pool)
include h

theorem writeEntry_ne_fails (allowed : (PoolOp.writeEntry thread entry).Allowed pool) :
    pool.writeEntry crc32 thread entry ≠ .error .fails := by
  rw [Pool.writeEntry]
  split
  · next off sz cur =>
    rw [if_pos (allowed _ cur).2.1]
    exact h.callRing_then_ne_fails (h.writeDone_sound cur) _
  · simp

theorem run_ne_fails {op : PoolOp} (allowed : op.Allowed pool) :
    op.run crc32 pool ≠ .error .fails := by
  cases op with
  | reserveSpace thread szs =>
    rw [PoolOp.run, Pool.reserveSpace]
    split
    · simp
    · exact h.callRing_then_ne_fails (reserve_sound ..) _
  | place thread => exact place_ne_fails
  | flushed thread =>
    rw [PoolOp.run, Pool.flushed]
    split
    · split <;> simp
    · simp
  | writeEntry thread entry => exact h.writeEntry_ne_fails allowed
  | writeEntryDone thread =>
    rw [PoolOp.run, Pool.writeEntryDone]
    split
    · next off sz cur => exact h.callRing_then_ne_fails (h.applied_sound cur) _
    · simp
  | consume =>
    rw [PoolOp.run, Pool.consume]
    split
    · exact h.callRing_then_ne_fails (consume_sound _) _
    · simp
  | lookup => exact h.lookup_ne_fails
  | pwrite n =>
    rw [PoolOp.run, Pool.pwrite]
    split
    · split <;> simp
    · simp
  | closeChunk => exact h.closeChunk_ne_fails
  | finish =>
    rw [PoolOp.run, Pool.finish]
    split
    · next handle len cur c done limit writing =>
      have sound : (RingOp.readDone Pool.workerThread handle).Sound pool.session :=
        (h.worker.reading handle).mpr ⟨len, by rw [writing, Worker.batch]⟩
      split
      · exact h.callRing_then_ne_fails sound _
      · simp
    · simp
  | truncate lsn =>
    obtain ⟨_, ⟨first, head, low⟩, high⟩ := allowed
    obtain ⟨i, c, found, _⟩ := h.getChunk
      (fun c hc => Option.some.inj (hc.symm.trans head) ▸ low)
      (le_trans high h.ring.order.1)
    rw [PoolOp.run, Pool.truncate, found]
    simp
  | prealloc =>
    intro fails
    cases fails
  | requestFlush off =>
    have sound : (RingOp.requestFlush off).Sound pool.session := trivial
    exact h.callRing_ne_fails sound

theorem range_uncut (mem : r ∈ pool.session.reserved) (held : c ∈ pool.live) :
    c.offset ≤ r.off ∨ r.off + r.size ≤ c.offset := by
  have bounds := h.ring.reserved.bounds mem
  refine Decidable.byContradiction fun cut => ?_
  cases h.chunks.aligned c held with
  | inl start =>
    obtain ⟨r', mem', eq⟩ := start
    have bounds' := h.ring.reserved.bounds mem'
    have same := h.ring.reserved.inj mem' mem (x := r'.off) (by omega) (by omega)
    subst same
    omega
  | inr old => omega

theorem entry_uncut (mem : e ∈ pool.logged) (held : c ∈ pool.live) :
    c.offset ≤ e.1 ∨ e.1 + frameOverhead + e.2.length ≤ c.offset := by
  cases h.logged.place e mem with
  | inr range =>
    obtain ⟨r, mem, _, off, size⟩ := range
    have uncut := h.range_uncut mem held
    omega
  | inl old =>
    refine Decidable.byContradiction fun cut => ?_
    cases h.chunks.aligned c held with
    | inl start =>
      obtain ⟨r, mem, eq⟩ := start
      have bounds := h.ring.reserved.bounds mem
      omega
    | inr below =>
      cases below.2 with
      | inl eq => omega
      | inr other =>
        obtain ⟨e', mem', eq⟩ := other
        have apart := h.logged.apart e mem e' mem' (by omega)
        omega

end

end Inv

theorem InChunk.extend (h : InChunk live i c a) (uncut : ∀ d ∈ live, d.offset ≤ a ∨ b ≤ d.offset)
    (low : a ≤ x) (high : x < b) : InChunk live i c x := by
  refine ⟨h.1, le_trans h.2.1 low, fun next hn => ?_⟩
  have behind := h.2.2 next hn
  have := uncut next (mem_of_getElem? hn)
  omega

/-- The bytes from `a` on are those of an entry: one that has its place, or that was
written. -/
def Pool.Entry (pool : Pool) (a n : Int) : Prop :=
  (∃ r ∈ pool.session.reserved, ¬Placing pool.writers r ∧ r.off = a ∧ r.size = n) ∨
    ∃ e ∈ pool.logged, e.1 = a ∧ n = frameOverhead + e.2.length

/-- The log as it is opened: nobody is writing, the chunks start at entries or at the end of
the log, and the files hold the entries in front of the end. -/
structure Opened (crc32 : List UInt8 → UInt32) (start : Nat) (pool : Pool) : Prop where
  session : pool.session = RingSession.init ringBase start
  writers : pool.writers = fun _ => none
  worker : pool.worker = .idle
  sorted : Sorted pool.live
  last : ∃ c, pool.live.getLast? = some c ∧ start < c.offset + targetChunkSize
  aligned : ∀ c ∈ pool.live,
    c.offset ≤ start ∧ (c.offset = start ∨ ∃ e ∈ pool.logged, e.1 = c.offset)
  files : FilesInv pool.live pool.dead pool.nextFile
  stored : Stored pool.live pool.files pool.image start
  logged : LoggedInv crc32 start [] pool.image pool.logged

variable {crc32 : List UInt8 → UInt32} {pool : Pool} {start : Nat}

theorem Opened.inv (h : Opened crc32 start pool) : Inv crc32 start pool := by
  have ring := init_valid ringBase start
  have idle : ∀ g, ¬(RingSession.init ringBase start).Reading g := fun g ⟨b, mem, _⟩ =>
    absurd mem not_mem_nil
  obtain ⟨c, last, far⟩ := h.last
  have first : ∃ c, pool.live.head? = some c ∧ c.offset ≤ start := by
    cases eq : pool.live with
    | nil => rw [eq] at last; cases last
    | cons d l => exact ⟨d, rfl, (h.aligned d (eq ▸ mem_cons_self)).1⟩
  refine ⟨h.session ▸ ring, ?_, ?_, ?_, ?_, h.files, ?_, ?_, ?_⟩
  · rw [Pool.ring, h.session]
    rfl
  · rw [h.session, h.writers]
    exact WritersInv.start
  · rw [Pool.ring, h.session]
    exact ⟨h.sorted, first, ⟨c, last, far, fun _ mem => absurd mem not_mem_nil⟩,
      fun c mem => .inr (h.aligned c mem)⟩
  · rw [h.session, h.worker]
    refine ⟨fun g => iff_of_false (idle g) fun ⟨_, batch⟩ => ?_, fun _ _ batch => ?_, ?_⟩
    · cases batch
    · cases batch
    · exact fun _ _ _ _ _ _ same => Worker.noConfusion same
  · rw [Pool.ring, h.session, h.worker]
    exact h.stored
  · rw [h.session]
    exact fun _ mem => absurd mem not_mem_nil
  · rw [h.session]
    exact h.logged

/-- The states that any order of the steps of the threads and the worker leads to. -/
inductive Reached (crc32 : List UInt8 → UInt32) (start : Nat) : Pool → Prop
  | opened {pool : Pool} (h : Opened crc32 start pool) : Reached crc32 start pool
  | step {pool after : Pool} (before : Reached crc32 start pool) (op : PoolOp)
      (allowed : op.Allowed pool) (run : op.run crc32 pool = .ok after) :
      Reached crc32 start after

theorem Reached.inv (h : Reached crc32 start pool) : Inv crc32 start pool := by
  induction h with
  | opened h => exact h.inv
  | step _ op allowed run ih => exact ih.step allowed run

/-- Where entries and chunks are, at every moment. -/
structure Placed (start : Int) (pool : Pool) : Prop where
  starts : ∀ c ∈ pool.live, (∃ r ∈ pool.session.reserved, r.off = c.offset) ∨
    (∃ e ∈ pool.logged, e.1 = c.offset) ∨ c.offset = start ∧ pool.session.reserved = []
  sorted : Sorted pool.live
  whole : ∀ a n, pool.Entry a n → (∀ c, pool.live.head? = some c → c.offset ≤ a) →
    ∃ i c, getChunkFromOffset pool.live a = some i ∧
      ∀ x, a ≤ x → x < a + n → InChunk pool.live i c x
  stored : ∀ x, x < pool.ring.rt → ∀ i c, InChunk pool.live i c x →
    x - c.offset < (pool.files c.fd).len ∧ (pool.files c.fd).byte (x - c.offset) = pool.image x

/-- A call of pwrite writes bytes of written entries, each to its chunk. -/
def WritesInPlace (pool after : Pool) (n : Int) : Prop :=
  ∃ x0 i c, x0 = pool.worker.frontier pool.ring.rf ∧
    after.worker.frontier after.ring.rf = x0 + n ∧
    after.files = update pool.files c.fd
      ((pool.files c.fd).write (x0 - c.offset) pool.ringBytes x0 n) ∧
    ∀ x, x0 ≤ x → x < x0 + n → InChunk pool.live i c x ∧ pool.ringBytes x = pool.image x ∧
      ∃ r ∈ pool.session.reserved, r.written = true ∧ r.off ≤ x ∧ x < r.off + r.size

theorem Inv.placed {start : Int} (h : Inv crc32 start pool) : Placed start pool := by
  refine ⟨fun c mem => ?_, h.chunks.sorted, fun a n entry untruncated => ?_, fun x below => ?_⟩
  · cases h.chunks.aligned c mem with
    | inl range => exact .inl range
    | inr old =>
      cases old.2 with
      | inr entry => exact .inr (.inl entry)
      | inl eq =>
        cases empty : pool.session.reserved with
        | nil => exact .inr (.inr ⟨eq, rfl⟩)
        | cons r l =>
          have tiles := h.ring.reserved
          rw [empty] at tiles
          exact .inl ⟨r, mem_cons_self, tiles.1.trans eq.symm⟩
  · obtain ⟨first, head, _⟩ := h.chunks.first
    obtain ⟨last, hl, far, below⟩ := h.chunks.last
    have placed : a + n ≤ start ∨ a + n < last.offset + targetChunkSize := by
      cases entry with
      | inl range =>
        obtain ⟨r, mem, out, off, size⟩ := range
        exact .inr (off ▸ size ▸ below r mem out)
      | inr logged =>
        obtain ⟨e, mem, off, size⟩ := logged
        cases h.logged.place e mem with
        | inl old => exact .inl (by omega)
        | inr range =>
          obtain ⟨r, mem, written, off', size'⟩ := range
          have := below r mem (h.not_placing mem written)
          exact .inr (by omega)
    have uncut : 0 < n ∧ ∀ d ∈ pool.live, d.offset ≤ a ∨ a + n ≤ d.offset := by
      cases entry with
      | inl range =>
        obtain ⟨r, mem, _, off, size⟩ := range
        have pos := (h.ring.reserved.bounds mem).2.1
        exact ⟨size ▸ pos, fun d held => off ▸ size ▸ h.range_uncut mem held⟩
      | inr logged =>
        obtain ⟨e, mem, off, size⟩ := logged
        have overhead : frameOverhead = 8 := rfl
        refine ⟨by omega, fun d held => ?_⟩
        have := h.entry_uncut mem held
        omega
    obtain ⟨i, c, found, inside⟩ := getChunkFromOffset_spec head hl (untruncated first head)
      (x := a) (by omega)
    exact ⟨i, c, found, fun x low high => inside.extend uncut.2 low high⟩
  · have frontier := (h.worker.frontier_bounds h.ring h.chunks.sorted).1
    exact h.stored x (lt_of_lt_of_le below frontier)

theorem Inv.writesInPlace {after : Pool} (h : Inv crc32 start pool)
    (step : pool.pwrite n = .ok after) : WritesInPlace pool after n := by
  obtain ⟨handle, len, cur, rest, c, done, limit, writing, _, fits, rfl⟩ := Pool.pwrite_ok step
  obtain ⟨i, e, _, inv⟩ := h.worker.writing _ _ _ _ _ _ writing
  obtain ⟨cur', rest', eq, at_c, _⟩ := inv.head
  rw [(List.cons.inj eq).1.symm] at at_c
  have low_rt := (h.worker.frontier_bounds h.ring h.chunks.sorted).1
  rw [writing] at low_rt
  refine ⟨handle.lsn + done, i, cur, by rw [writing, Worker.frontier],
    by simp only [Worker.frontier]; omega, rfl, fun x low high => ?_⟩
  obtain ⟨inside, below⟩ := inv.inChunk h.chunks.sorted at_c low (by omega)
  obtain ⟨byte, range⟩ := h.ring_byte (le_trans low_rt low) below
  exact ⟨inside, byte, range⟩

/-- A step that keeps to the rules of the clients. -/
def Pool.runAllowed (crc32 : List UInt8 → UInt32) (pool : Pool) (op : PoolOp) : Except Stop Pool :=
  if op.Allowed pool then op.run crc32 pool else .error .fails

theorem Reached.steps {after : Pool} {ops : List PoolOp} (h : Reached crc32 start pool)
    (run : ops.foldlM (Pool.runAllowed crc32) pool = .ok after) : Reached crc32 start after :=
  foldlM_guarded h (fun _ op _ h allowed => h.step op allowed) run

/-- A log with one entry, in a chunk that is almost full. -/
def nearlyFull : Pool where
  live := [⟨1, 0⟩]
  dead := []
  nextFile := 1
  files := fun _ => ⟨134217728, fun pos => storeList (fun _ => 0) 1
    (frame (fun _ => 0) (LittleEndian.encode 8 1)) (pos + 1)⟩
  session := RingSession.init ringBase 134217600
  mem := fun _ => 0
  writers := fun _ => none
  worker := .idle
  image := storeList (fun _ => 0) 1 (frame (fun _ => 0) (LittleEndian.encode 8 1))
  logged := [(1, LittleEndian.encode 8 1)]

theorem nearlyFull_opened : Opened (fun _ => 0) 134217600 nearlyFull := by
  refine ⟨rfl, rfl, rfl, pairwise_singleton _ _, ⟨_, rfl, by decide⟩, fun c mem => ?_,
    ⟨by decide, by decide⟩, fun x below i c inside => ?_, ?_⟩
  · rw [mem_singleton.mp mem]
    exact ⟨by decide, .inr ⟨_, mem_singleton_self _, rfl⟩⟩
  · have eq := mem_singleton.mp (mem_of_getElem? inside.1)
    subst eq
    have shift : x - 1 + 1 = x := by omega
    refine ⟨?_, ?_⟩
    · simp only [nearlyFull]
      omega
    · simp only [nearlyFull, shift]
  · refine ⟨fun e mem => ?_, fun e mem => ?_, fun e mem => ?_, fun _ mem => absurd mem
      not_mem_nil, fun e mem e' mem' lt => ?_⟩
    · rw [mem_singleton.mp mem]
      exact loadList_storeList _ _ _
    · rw [mem_singleton.mp mem]
      decide
    · rw [mem_singleton.mp mem]
      exact .inl (by decide)
    · rw [mem_singleton.mp mem, mem_singleton.mp mem'] at lt
      exact absurd lt (lt_irrefl _)

/-- In every order of reservations, placements and batches, chunks start at entries and are in
order, entries lie in one chunk each, which the lookup names, the worker writes every byte to
the file of its chunk, and no assertion fails. -/
theorem chunk_placement {crc32 : List UInt8 → UInt32} {start : Nat} {pool : Pool}
    (h : Reached crc32 start pool) :
    Placed start pool ∧ (∀ n after, pool.pwrite n = .ok after → WritesInPlace pool after n) ∧
      ∀ op : PoolOp, op.Allowed pool → op.run crc32 pool ≠ .error .fails :=
  ⟨h.inv.placed, fun _ _ step => h.inv.writesInPlace step, fun _ => h.inv.run_ne_fails⟩

/-- A later entry appends a chunk before an earlier one is placed; the worker then writes the
earlier one to the chunk in front. -/
theorem chunk_placement_across :
    ∃ pool after, pool.live.map (·.offset) = [1, 134217616] ∧ pool.pwrite 16 = .ok after ∧
      Placed 134217600 pool ∧ WritesInPlace pool after 16 := by
  obtain ⟨pool, run, offsets, worker⟩ : ∃ pool, [.reserveSpace 1 8, .reserveSpace 2 200, .place 2,
      .place 1, .writeEntry 1 (LittleEndian.encode 8 134217600), .consume, .lookup].foldlM
        (Pool.runAllowed fun _ => 0) nearlyFull = .ok pool ∧
      pool.live.map (·.offset) = [1, 134217616] ∧
        pool.worker = .writing ⟨0, 134217600⟩ 16 [⟨1, 0⟩, ⟨134217616, 1⟩] 0 0 16 := by
    decide +kernel
  have reached := (Reached.opened nearlyFull_opened).steps run
  obtain ⟨placed, writes, _⟩ := chunk_placement reached
  have step : ∃ after, pool.pwrite 16 = .ok after := by
    rw [Pool.pwrite, worker]
    exact ⟨_, if_pos (by decide)⟩
  obtain ⟨after, step⟩ := step
  exact ⟨pool, after, offsets, step, placed, writes 16 after step⟩

end Stasis.FilePool
