import Stasis.Logger.FilePool.Safety

/-!
What a client of the file pool can rely on while other threads run.

A client that reads or forces the entry at an offset takes several steps, and the other
threads and the worker take theirs in between. Whatever they do, the tails of the ring
move up, entries stay logged, and the chunk of the offset stays where it is, as long as
nobody truncates the log behind the offset.
-/
namespace Stasis.FilePool
open Memory Function Tiling RingSession

/-- The log reaches back to `x`. -/
def Pool.Covers (pool : Pool) (x : Int) : Prop := ∀ c, pool.live.head? = some c → c.offset ≤ x

/-- What the steps of others leave to a client at `x`. -/
structure Advance (x : Int) (pool after : Pool) : Prop where
  rt : pool.ring.rt ≤ after.ring.rt
  wf : pool.ring.wf ≤ after.ring.wf
  logged : ∀ e ∈ pool.logged, e ∈ after.logged
  covers : pool.Covers x → after.Covers x
  chunk : ∀ i c, InChunk pool.live i c x → x < pool.ring.rf → ∃ j, InChunk after.live j c x

/-- An operation that leaves the entry at `x` in the log. -/
def PoolOp.Keeps (x : Int) : PoolOp → Prop
  | truncate lsn => lsn ≤ x
  | _ => True

instance (x : Int) : (op : PoolOp) → Decidable (op.Keeps x)
  | .truncate lsn => inferInstanceAs (Decidable (lsn ≤ x))
  | .reserveSpace _ _ | .place _ | .flushed _ | .writeEntry _ _ | .writeEntryDone _ | .consume
  | .lookup | .pwrite _ | .closeChunk | .finish | .prealloc | .requestFlush _ =>
    inferInstanceAs (Decidable True)

namespace Advance

theorem of_same (live : after.live = pool.live) (rt : pool.ring.rt ≤ after.ring.rt)
    (wf : pool.ring.wf ≤ after.ring.wf) (logged : ∀ e ∈ pool.logged, e ∈ after.logged) :
    Advance x pool after :=
  ⟨rt, wf, logged, fun covers => by rw [Pool.Covers, live]; exact covers,
    fun i c inside _ => ⟨i, by rw [live]; exact inside⟩⟩

theorem refl (x : Int) (pool : Pool) : Advance x pool pool :=
  of_same rfl le_rfl le_rfl fun _ mem => mem

theorem of_concat (live : after.live = pool.live ++ [new]) (behind : pool.ring.rf ≤ new.offset)
    (some : pool.live ≠ []) (session : after.ring = pool.ring)
    (logged : after.logged = pool.logged) : Advance x pool after := by
  refine ⟨session ▸ le_rfl, session ▸ le_rfl, fun e mem => logged ▸ mem, ?_, ?_⟩
  · intro covers c head
    obtain ⟨d, l, eq⟩ := List.exists_cons_of_ne_nil some
    rw [live, eq, List.cons_append, List.head?_cons] at head
    exact covers c (by rw [eq, List.head?_cons]; exact head)
  · intro i c inside below
    exact ⟨i, live ▸ inside.concat (lt_of_lt_of_le below behind)⟩

end Advance

namespace Inv
variable {pool : Pool}

theorem live_ne_nil (h : Inv crc32 start pool) : pool.live ≠ [] := by
  obtain ⟨c, head, _⟩ := h.chunks.first
  intro nil
  rw [nil] at head
  cases head

theorem appendChunk_advance (h : Inv crc32 start pool) (behind : pool.ring.rf ≤ off) :
    Advance x pool (pool.appendChunk off) := by
  rw [Pool.appendChunk]
  split
  · exact .of_concat rfl behind h.live_ne_nil rfl rfl
  · exact .of_concat rfl behind h.live_ne_nil rfl rfl

theorem callFlush_tails (run : (RingOp.requestFlush off).run pool.session = .ok s) :
    s.ring.rt = pool.ring.rt ∧ s.ring.wf = pool.ring.wf := by
  obtain ⟨flush, same⟩ := pool.session.ring.requestFlush_eq off
  rw [RingOp.run, same] at run
  cases run
  exact ⟨rfl, rfl⟩

theorem place_advance (h : Inv crc32 start pool) (step : pool.place thread = .ok after) :
    Advance x pool after := by
  obtain ⟨off, sz, placed, cur, ensured, rest⟩ := Pool.place_ok step
  obtain ⟨r, mem, handle, _, _, written, _⟩ := h.range cur
  have writing : r.written = false := Bool.eq_false_iff.mpr fun w => Phase.noConfusion (written.mp w)
  have low := h.ring.wt_le mem writing
  have behind : pool.ring.rf ≤ off := by
    rw [Reservation.off, handle] at low
    exact le_trans h.ring.rf_le_wt low
  have placed_advance : Advance x pool placed := by
    cases Pool.ensureChunk_ok ensured with
    | inl there =>
      obtain ⟨_, _, rfl⟩ := there
      exact .refl x _
    | inr appended =>
      obtain ⟨_, rfl⟩ := appended
      exact h.appendChunk_advance behind
  cases rest with
  | inl flush =>
    obtain ⟨_, s, run, rfl⟩ := flush
    have same := callFlush_tails run
    exact { placed_advance with
      rt := le_trans placed_advance.rt (Int.le_of_eq same.1.symm)
      wf := le_trans placed_advance.wf (Int.le_of_eq same.2.symm) }
  | inr fill =>
    obtain ⟨_, rfl⟩ := fill
    exact { placed_advance with }

theorem truncate_advance (sorted : Sorted pool.live) (keeps : lsn ≤ x)
    (step : pool.truncate lsn = .ok after) : Advance x pool after := by
  obtain ⟨chunk, found, rfl⟩ := Pool.truncate_ok step
  obtain ⟨c, at_chunk, low, _⟩ := getChunkFromOffset_inChunk found
  refine ⟨le_rfl, le_rfl, fun _ mem => mem, fun _ d head => ?_, fun i d inside _ => ?_⟩
  · rw [List.head?_drop, at_chunk] at head
    rw [← Option.some.inj head]
    exact le_trans low keeps
  · have le := InChunk.index_le sorted at_chunk (le_trans low keeps) inside
    refine ⟨i - chunk, inChunk_drop.mpr ?_⟩
    rw [Nat.add_sub_cancel' le]
    exact inside

theorem advance (h : Inv crc32 start pool) {op : PoolOp} (keeps : op.Keeps x)
    (run : op.run crc32 pool = .ok after) : Advance x pool after := by
  cases op with
  | reserveSpace thread szs =>
    obtain ⟨_, sz, s, ring, rfl⟩ := Pool.reserveSpace_ok run
    obtain ⟨_, _, _, _, rfl⟩ := run_ok h.ring (reserve_sound ..) ring
    refine .of_same rfl le_rfl ?_ fun _ mem => mem
    simp only [Pool.ring, frameOverhead]
    omega
  | place thread => exact h.place_advance run
  | flushed thread =>
    obtain ⟨_, _, _, _, _, rfl⟩ := Pool.flushed_ok run
    exact .of_same rfl le_rfl le_rfl fun _ mem => mem
  | writeEntry thread entry =>
    obtain ⟨off, s, cur, ring, rfl⟩ := Pool.writeEntry_ok run
    obtain ⟨_, _, _, _, rfl⟩ := run_ok h.ring (h.writeDone_sound cur) ring
    exact .of_same rfl le_rfl le_rfl fun _ mem => List.mem_append_left _ mem
  | writeEntryDone thread =>
    obtain ⟨off, sz, s, cur, ring, rfl⟩ := Pool.writeEntryDone_ok run
    obtain ⟨_, _, _, _, rfl⟩ := run_ok h.ring (h.applied_sound cur) ring
    exact .of_same rfl le_rfl le_rfl fun _ mem => mem
  | consume =>
    obtain ⟨_, s, ring, rfl⟩ := Pool.consume_ok run
    obtain ⟨_, _, _, _, rfl⟩ := run_ok h.ring (consume_sound _) ring
    exact .of_same rfl le_rfl le_rfl fun _ mem => mem
  | lookup =>
    obtain ⟨_, _, _, _, _, _, _, _, _, rfl⟩ := Pool.lookup_ok run
    exact .of_same rfl le_rfl le_rfl fun _ mem => mem
  | pwrite n =>
    obtain ⟨_, _, _, _, _, _, _, _, _, _, rfl⟩ := Pool.pwrite_ok run
    exact .of_same rfl le_rfl le_rfl fun _ mem => mem
  | closeChunk =>
    obtain ⟨_, _, _, _, _, _, _, _, _, _, rfl⟩ := Pool.closeChunk_ok run
    exact .of_same rfl le_rfl le_rfl fun _ mem => mem
  | finish =>
    obtain ⟨handle, len, cur, c, done, s, writing, ring, rfl⟩ := Pool.finish_ok run
    have sound : (RingOp.readDone Pool.workerThread handle).Sound pool.session :=
      (h.worker.reading handle).mpr ⟨len, by rw [writing, Worker.batch]⟩
    obtain ⟨_, _, _, up, rfl⟩ := run_ok h.ring sound ring
    exact .of_same rfl up le_rfl fun _ mem => mem
  | truncate lsn => exact truncate_advance h.chunks.sorted keeps run
  | prealloc =>
    cases run
    exact .of_same rfl le_rfl le_rfl fun _ mem => mem
  | requestFlush off =>
    obtain ⟨s, ring, rfl⟩ := Pool.callRing_ok run
    have same := callFlush_tails ring
    exact .of_same rfl (Int.le_of_eq same.1.symm) (Int.le_of_eq same.2.symm) fun _ mem => mem

end Inv
end Stasis.FilePool
