import Stasis.Logger.FilePool.Advance
import Stasis.Logger.FilePool.Straddle
import Stasis.Logger.LogEntry

/-!
Forcing the file pool log.

`stasis_log_force` looks at the first unstable number, and if that is not behind the entry,
it flushes the ring up to the write frontier. The file pool has no group force, and takes
no notice of the mode. The number it compares counts bytes, and batches of the worker end
anywhere: an entry may start in front of it and end behind it.
-/
namespace Stasis.FilePool
open Memory Fallible

section Clients
variable {C : Type}

/-- A client that takes its steps between those of the other threads and the worker, which
leave the entry at `x` in the log. Its own steps are taken in states that `guard` allows. -/
inductive Interleaved (crc32 : List UInt8 → UInt32) (x : Int)
    (client : Pool → C → Except Stop (Pool × C)) (guard : Pool → C → Prop) (pool0 : Pool) (c0 : C) :
    Pool → C → Prop
  | start : Interleaved crc32 x client guard pool0 c0 pool0 c0
  | other {pool after : Pool} {c : C} (before : Interleaved crc32 x client guard pool0 c0 pool c)
      (op : PoolOp) (allowed : op.Allowed pool) (keeps : op.Keeps x)
      (run : op.run crc32 pool = .ok after) : Interleaved crc32 x client guard pool0 c0 after c
  | own {pool after : Pool} {c c' : C} (before : Interleaved crc32 x client guard pool0 c0 pool c)
      (met : guard pool c) (step : client pool c = .ok (after, c')) :
      Interleaved crc32 x client guard pool0 c0 after c'

variable {crc32 : List UInt8 → UInt32} {x : Int} {client : Pool → C → Except Stop (Pool × C)}
  {pool : Pool}

theorem Interleaved.invariant {start : Int} {guard : Pool → C → Prop} {J : Pool → C → Prop}
    (h0 : Inv crc32 start pool0) (j0 : J pool0 c0)
    (other : ∀ pool after c, Inv crc32 start pool → Inv crc32 start after → Advance x pool after →
      J pool c → J after c)
    (own : ∀ pool after c c', Inv crc32 start pool → guard pool c → J pool c →
      client pool c = .ok (after, c') → Inv crc32 start after ∧ J after c')
    (run : Interleaved crc32 x client guard pool0 c0 pool c) : Inv crc32 start pool ∧ J pool c := by
  induction run with
  | start => exact ⟨h0, j0⟩
  | other _ op allowed keeps run ih =>
    have after := ih.1.step allowed run
    exact ⟨after, other _ _ _ ih.1 after (ih.1.advance keeps run) ih.2⟩
  | own _ met step ih => exact own _ _ _ _ ih.1 met ih.2 step

/-- Steps of the others, and of the client where there is `none`. -/
def Pool.runClient (crc32 : List UInt8 → UInt32) (x : Int)
    (client : Pool → C → Except Stop (Pool × C)) (s : Pool × C) :
    Option PoolOp → Except Stop (Pool × C)
  | some op =>
    if op.Allowed s.1 ∧ op.Keeps x then (op.run crc32 s.1).map fun pool => (pool, s.2)
    else .error .fails
  | none => client s.1 s.2

theorem Interleaved.steps {ops : List (Option PoolOp)}
    (h : Interleaved crc32 x client (fun _ _ => True) pool0 c0 pool c)
    (run : ops.foldlM (Pool.runClient crc32 x client) (pool, c) = .ok (after, c')) :
    Interleaved crc32 x client (fun _ _ => True) pool0 c0 after c' := by
  induction ops generalizing pool c with
  | nil =>
    cases run
    exact h
  | cons op ops ih =>
    rw [List.foldlM_cons] at run
    obtain ⟨⟨mid, c1⟩, first, rest⟩ := bind_eq_ok.mp run
    cases op with
    | none => exact ih (h.own trivial first) rest
    | some op =>
      rw [Pool.runClient] at first
      split at first
      · next met =>
        cases ran : op.run crc32 pool with
        | error e => rw [ran] at first; cases first
        | ok p =>
          rw [ran] at first
          cases first
          exact ih (h.other op met.1 met.2 ran) rest
      · cases first

end Clients

/-- Where a thread is in `stasis_log_force`. -/
inductive Force where
  | test
  | tail
  | request (off : Int)
  | wait (off : Int)
  | returned
deriving DecidableEq, Repr

/-- The mode chooses nothing: `group_force` is null, and neither `first_unstable_lsn` nor
`force_tail` looks at it. -/
def Pool.forceStep (lsn : Int) (_mode : ForceMode) (pool : Pool) : Force → Except Stop (Pool × Force)
  | .test => .ok (pool, if pool.firstUnstableLsn ≤ lsn then .tail else .returned)
  | .tail => .ok (pool, .request pool.nextAvailableLsn)
  | .request off => do
      let pool ← pool.callRing (.requestFlush off)
      .ok (pool, .wait off)
  | .wait off => if off ≤ pool.ring.rt then .ok (pool, .returned) else .error .waits
  | .returned => .error .waits

section Force
variable {crc32 : List UInt8 → UInt32} {start lsn : Int} {mode : ForceMode} {pool after : Pool}

theorem forceStep_ok {f f' : Force} (step : pool.forceStep lsn mode f = .ok (after, f'))
    (h : Inv crc32 start pool) : Inv crc32 start after ∧ after.ring.rt = pool.ring.rt ∧
      after.ring.wf = pool.ring.wf ∧ after.logged = pool.logged := by
  cases f with
  | test | tail =>
    cases step
    exact ⟨h, rfl, rfl, rfl⟩
  | request off =>
    obtain ⟨mid, call, eq⟩ := bind_eq_ok.mp step
    obtain ⟨s, run, rfl⟩ := Pool.callRing_ok call
    cases eq
    have same := Inv.callFlush_tails run
    exact ⟨h.requestFlush run, same.1, same.2, rfl⟩
  | wait off =>
    rw [Pool.forceStep] at step
    split at step
    · cases step
      exact ⟨h, rfl, rfl, rfl⟩
    · cases step
  | returned => cases step

/-- The bytes in front of `stop` are reserved, and once a force returns they are on disk. -/
def Forced (stop : Int) (pool : Pool) : Force → Prop
  | .test => False
  | .tail => stop ≤ pool.ring.wf
  | .request off => stop ≤ off
  | .wait off => stop ≤ off
  | .returned => stop ≤ pool.ring.rt

theorem forced_run {stop x : Int} {f : Force} {pool0 : Pool} {guard : Pool → Force → Prop}
    (h0 : Inv crc32 start pool0) (forced : Forced stop pool0 f0)
    (run : Interleaved crc32 x (Pool.forceStep lsn mode) guard pool0 f0 pool f) :
    Inv crc32 start pool ∧ Forced stop pool f := by
  refine run.invariant h0 forced (fun pool after f _ _ adv forced => ?_)
    fun pool after f f' h _ forced step => ?_
  · cases f with
    | test | request _ | wait _ => exact forced
    | tail => exact le_trans forced adv.wf
    | returned => exact le_trans forced adv.rt
  · obtain ⟨inv, rt, wf, _⟩ := forceStep_ok step h
    refine ⟨inv, ?_⟩
    cases f with
    | test => exact forced.elim
    | tail =>
      cases step
      exact forced
    | request off =>
      obtain ⟨_, _, eq⟩ := bind_eq_ok.mp step
      cases eq
      exact forced
    | wait off =>
      rw [Pool.forceStep] at step
      split at step
      · next reached =>
        cases step
        exact le_trans forced reached
      · cases step
    | returned => cases step

theorem Inv.entry_le_wf (h : Inv crc32 start pool) {e : Int × List UInt8} (mem : e ∈ pool.logged) :
    e.1 + frameOverhead + e.2.length ≤ pool.ring.wf := by
  have first : start ≤ pool.ring.wf := h.ring.reserved.le
  cases h.logged.place e mem with
  | inl old => exact le_trans old first
  | inr range =>
    obtain ⟨r, held, _, off, size⟩ := range
    have last : r.off + r.size ≤ pool.ring.wf := (h.ring.reserved.bounds held).2.2
    omega

/-- A force that does not find the tail inside the entry returns with the whole entry, and all
in front of it, in the chunk files. -/
theorem force_stabilises {start : Nat} {x : Int} {entry : List UInt8} {pool0 pool1 : Pool} {f1 :
      Force}
    (h : Reached crc32 start pool0) (logged : (lsn, entry) ∈ pool0.logged)
    (edge : pool0.ring.rt ≤ lsn ∨ lsn + frameOverhead + entry.length ≤ pool0.ring.rt)
    (test : pool0.forceStep lsn mode .test = .ok (pool1, f1))
    (run : Interleaved crc32 x (Pool.forceStep lsn mode) (fun _ _ => True) pool1 f1 pool .returned) :
    Stored pool.live pool.files pool.image (lsn + frameOverhead + entry.length) ∧
      (lsn, entry) ∈ pool.logged ∧
      loadList pool.image lsn (frame crc32 entry).length = frame crc32 entry := by
  have end_le := h.inv.entry_le_wf logged
  have start_forced : Inv crc32 start pool1 ∧ (lsn, entry) ∈ pool1.logged ∧
      Forced (lsn + frameOverhead + entry.length) pool1 f1 := by
    rw [Pool.forceStep] at test
    have eq := Except.ok.inj test
    split at eq
    · cases eq
      exact ⟨h.inv, logged, end_le⟩
    · next behind =>
      cases eq
      exact ⟨h.inv, logged, edge.resolve_left behind⟩
  obtain ⟨inv1, logged1, forced1⟩ := start_forced
  obtain ⟨inv, forced⟩ := forced_run inv1 forced1 run
  have kept : (lsn, entry) ∈ pool.logged := by
    have := run.invariant (J := fun pool _ => (lsn, entry) ∈ pool.logged) inv1 logged1
      (fun pool after f _ _ adv mem => adv.logged _ mem)
      fun pool after f f' h _ mem step => by
        obtain ⟨inv, _, _, same⟩ := forceStep_ok step h
        exact ⟨inv, same ▸ mem⟩
    exact this.2
  refine ⟨fun x below => inv.placed.stored x (lt_of_lt_of_le below forced), kept, ?_⟩
  exact inv.logged.framed _ kept

end Force

/-- An entry that the first batch cuts. -/
def cutEntry : List UInt8 := LittleEndian.encode 8 1 ++ List.replicate 16777204 0

theorem length_cutEntry : cutEntry.length = 16777212 := by
  rw [cutEntry, List.length_append, LittleEndian.length_encode, List.length_replicate]

theorem lsnOf_cutEntry : lsnOf cutEntry = 1 := by
  rw [lsnOf, cutEntry, List.take_left' (LittleEndian.length_encode 8 1)]
  decide

/-- The tail lies inside the entry, and the force returns without the last bytes of it. -/
theorem force_cut_entry :
    ∃ pool, Reached (fun _ => 0) 1 pool ∧ (1, cutEntry) ∈ pool.logged ∧
      pool.forceStep 1 .commit .test = .ok (pool, .returned) ∧
      ∃ x i c, x < 1 + frameOverhead + cutEntry.length ∧ InChunk pool.live i c x ∧
        (pool.files c.fd).len ≤ x - c.offset := by
  generalize (fun _ => 0 : List UInt8 → UInt32) = crc32
  obtain ⟨pool, reached, cut⟩ := straddled_reached crc32 length_cutEntry lsnOf_cutEntry
  have live := cut.live
  have rt : pool.firstUnstableLsn = 16777217 := cut.rt
  refine ⟨pool, reached, by rw [cut.logged]; exact List.mem_cons_self, ?_, 16777217, 0, ⟨1, 0⟩, ?_,
    ?_, ?_⟩
  · rw [Pool.forceStep, rt]
    rfl
  · rw [length_cutEntry]
    decide
  · rw [live]
    exact ⟨rfl, by decide, fun next hn => by cases hn⟩
  · rw [cut.len]
    decide

/-- An entry of eight bytes is forced: the flush makes the worker take it at once. -/
theorem force_stabilises_small :
    ∃ pool : Pool, pool.ring.rt = 17 ∧ Stored pool.live pool.files pool.image 17 ∧
      loadList pool.image 1 16 = frame (fun _ => 0) (LittleEndian.encode 8 1) := by
  obtain ⟨pool0, before, rt0, logged, s1, test, ⟨pool, f⟩, run, rt, rfl⟩ : ∃ pool0,
      [.reserveSpace 1 8, .place 1, .flushed 1, .writeEntry 1 (LittleEndian.encode 8 1)].foldlM
        (Pool.runAllowed fun _ => 0) created = .ok pool0 ∧ pool0.ring.rt = 1 ∧
      (1, LittleEndian.encode 8 1) ∈ pool0.logged ∧
        ∃ s1, pool0.forceStep 1 .commit .test = .ok s1 ∧ ∃ s,
          [none, none, some .consume, some .lookup, some (.pwrite 16), some .finish, none].foldlM
            (Pool.runClient (fun _ => 0) 1 (Pool.forceStep 1 .commit)) s1 = .ok s ∧
              s.1.ring.rt = 17 ∧ s.2 = .returned := by
    decide +kernel
  have reached := (Reached.opened (created_opened fun _ => 0)).steps before
  have forced := force_stabilises reached logged (.inl (Int.le_of_eq rt0)) test
    (Interleaved.start.steps run)
  exact ⟨pool, rt, forced.1, forced.2.2⟩

end Stasis.FilePool
