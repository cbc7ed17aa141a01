import Stasis.Logger.GroupForce
import Stasis.Logger.FilePool.Force

/-!
What `Tcommit` and `TforceCommits` leave stable.

Over the safe writes log, both go through the group force, which reads a missing number as
the end of the log. The file pool has no group force: `Tcommit` forces the number of its
record, and `TforceCommits` passes the missing number on, which is in front of every log.
-/
namespace Stasis

/-- What a call forces. -/
def GroupForce.Call.lsn : GroupForce.Call → Int
  | .tcommit lsn => lsn
  | .tforceCommits _ => GroupForce.invalidLsn

namespace FilePool
open GroupForce Fallible
export GroupForce (Call)

/-- The bytes behind the record at `x`. -/
def entryEnd (x : Int) (entry : List UInt8) : Int := x + frameOverhead + entry.length

/-- The first unstable number is not inside the record at `lsn`. -/
def Outside (pool : Pool) (lsn : Int) : Prop :=
  ∀ entry, (lsn, entry) ∈ pool.logged →
    pool.firstUnstableLsn ≤ lsn ∨ entryEnd lsn entry ≤ pool.firstUnstableLsn

theorem test_forced (h : Inv crc32 start pool) (outside : Outside pool lsn)
    (test : pool.forceStep lsn .commit .test = .ok (pool1, f))
    (logged : (lsn, entry) ∈ pool.logged) : pool1 = pool ∧ Forced (entryEnd lsn entry) pool f := by
  have frontier : entryEnd lsn entry ≤ pool.ring.wf := h.entry_le_wf logged
  have eq := Except.ok.inj test
  split at eq
  · cases eq
    exact ⟨rfl, frontier⟩
  · next behind =>
    cases eq
    exact ⟨rfl, (outside entry logged).resolve_left behind⟩

end FilePool

open GroupForce in
/-- When a call returns, its records are stable, and so are all records in front of them. On the
file pool a commit returns at once, with the pool as it was, if the first unstable number is inside
its record, and `TforceCommits` always does. -/
theorem commit_durable (crc : List UInt8 → UInt32 → UInt32) (crc32 : List UInt8 → UInt32) :
    (∀ s, GroupForce.Running crc s → ∀ ptr call, s.clients ptr = .returned call → ∀ x ∈ call.records,
      Committed s.log x ∧
        ∀ f ∈ s.log.logged, f.LSN ≤ x → SafeWrites.nextEntry f ≤ s.firstUnstable) ∧
    ∀ start pool0, FilePool.Reached crc32 start pool0 →
      (∀ x, FilePool.Outside pool0 x →
        ∀ pool1 f, pool0.forceStep (Call.tcommit x).lsn .commit .test = .ok (pool1, f) →
          ∀ keep pool, FilePool.Interleaved crc32 keep (FilePool.Pool.forceStep x .commit)
              (fun _ _ => True) pool1 f pool .returned →
            ∀ entry, (x, entry) ∈ pool0.logged →
              FilePool.entryEnd x entry ≤ pool.firstUnstableLsn ∧
                ∀ e ∈ pool.logged, e.1 < x → FilePool.entryEnd e.1 e.2 ≤ pool.firstUnstableLsn) ∧
      (∀ x, ¬ FilePool.Outside pool0 x →
        pool0.forceStep (Call.tcommit x).lsn .commit .test = .ok (pool0, .returned)) ∧
      ∀ soft, pool0.forceStep (Call.tforceCommits soft).lsn .commit .test = .ok (pool0, .returned) := by
  refine ⟨fun s running ptr call returned x mem => running.stable returned mem, ?_⟩
  refine fun start pool0 reached => ⟨?_, fun x inside => ?_, fun soft => ?_⟩
  · intro x outside pool1 f test keep pool run entry logged
    obtain ⟨rfl, forced⟩ := FilePool.test_forced reached.inv outside test logged
    obtain ⟨inv, stable⟩ := FilePool.forced_run reached.inv forced run
    have kept := run.invariant (J := fun pool _ => (x, entry) ∈ pool.logged) reached.inv logged
      (fun pool after f _ _ adv mem => adv.logged _ mem)
      fun pool after f f' h _ mem step => by
        obtain ⟨inv, _, _, same⟩ := FilePool.forceStep_ok step h
        exact ⟨inv, same ▸ mem⟩
    refine ⟨stable, fun e member lt => ?_⟩
    have apart : FilePool.entryEnd e.1 e.2 ≤ x := inv.logged.apart e member _ kept.2 lt
    have whole : FilePool.entryEnd x entry ≤ pool.firstUnstableLsn := stable
    rw [FilePool.entryEnd] at whole
    omega
  · have behind : ¬ pool0.firstUnstableLsn ≤ (Call.tcommit x).lsn := fun le => inside fun _ _ => .inl le
    rw [FilePool.Pool.forceStep, if_neg behind]
  · have first : (start : Int) ≤ pool0.firstUnstableLsn := reached.inv.start_le_rt
    have missing : (Call.tforceCommits soft).lsn = -1 := rfl
    rw [FilePool.Pool.forceStep, if_neg (by omega)]

/-- The record of the first commit of a file pool. -/
def firstCommit : List UInt8 := (RawLogEntry.mk 1 (-1) 1 RawLogEntry.xcommit []).bytes

open GroupForce Fallible in
/-- A soft commit is forced at 8 in the one log, and a commit at 1 in the other. -/
theorem commit_durable_first : ∃ s : Commits, s.clients 2 = .returned (.tforceCommits [8]) ∧
    (∀ f ∈ s.log.logged, f.LSN ≤ 8 → SafeWrites.nextEntry f ≤ s.firstUnstable) ∧
      ∃ pool0 pool : FilePool.Pool, (1, firstCommit) ∈ pool0.logged ∧ pool0.firstUnstableLsn = 1 ∧
        33 ≤ pool.firstUnstableLsn := by
  obtain ⟨s, run, returned⟩ : ∃ s, [.commit 1 false, .reserve 1 1, .write 1 (-1) 1, .done 1,
      .forceCommits 2, .lock 2, .readUnstable 2, .readNext 2, .choose 2 2, .timeout 2, .check 2,
      .forceTail 2 1, .force 2, .force 2, .force 2, .force 2, .force 2, .finish 2].foldlM
        (Commits.runAllowed fun _ crc => crc)
        ⟨SafeWrites.created false false, none, 0, fun _ => .other, []⟩ = .ok s ∧
      s.clients 2 = .returned (.tforceCommits [8]) := by
    decide +kernel
  have running : GroupForce.Running (fun _ crc => crc) s :=
    (GroupForce.Running.start ⟨.created false false, fun _ => rfl, rfl⟩).steps run
  obtain ⟨pool0, before, rt0, logged, ⟨pool1, f1⟩, test, ⟨pool, f⟩, run, rfl⟩ : ∃ pool0,
      [.reserveSpace 1 24, .place 1, .flushed 1, .writeEntry 1 firstCommit, .writeEntryDone 1].foldlM
        (FilePool.Pool.runAllowed fun _ => 0) FilePool.created = .ok pool0 ∧ pool0.ring.rt = 1 ∧
      (1, firstCommit) ∈ pool0.logged ∧ ∃ s1, pool0.forceStep 1 .commit .test = .ok s1 ∧ ∃ s,
        [none, none, some .consume, some .lookup, some (.pwrite 32), some .finish, none].foldlM
          (FilePool.Pool.runClient (fun _ => 0) 1 (FilePool.Pool.forceStep 1 .commit)) s1 = .ok s ∧
            s.2 = .returned := by
    decide +kernel
  have reached := (FilePool.Reached.opened (FilePool.created_opened fun _ => 0)).steps before
  have durable := commit_durable (fun _ crc => crc) fun _ => 0
  have forced := (durable.2 1 pool0 reached).1 1 (fun _ _ => .inl (Int.le_of_eq rt0)) pool1 f1 test 1
    pool (FilePool.Interleaved.start.steps run) firstCommit logged
  exact ⟨s, returned, (durable.1 s running 2 _ returned 8 List.mem_cons_self).2, pool0, pool, logged,
    rt0, forced.1⟩

open GroupForce Fallible in
/-- A soft commit has returned, and `TforceCommits` returns without forcing its record. -/
theorem soft_commit_unforced : ∃ pool : FilePool.Pool, FilePool.Reached (fun _ => 0) 1 pool ∧
    pool.logged = [(1, firstCommit)] ∧ pool.writers 1 = none ∧
      pool.forceStep (Call.tforceCommits [1]).lsn .commit .test = .ok (pool, .returned) ∧
        pool.firstUnstableLsn = 1 := by
  obtain ⟨pool, run, logged, writer, stable⟩ : ∃ pool, [.reserveSpace 1 24, .place 1, .flushed 1,
      .writeEntry 1 firstCommit, .writeEntryDone 1].foldlM (FilePool.Pool.runAllowed fun _ => 0)
        FilePool.created = .ok pool ∧ pool.logged = [(1, firstCommit)] ∧ pool.writers 1 = none ∧
          pool.firstUnstableLsn = 1 := by
    decide +kernel
  have reached := (FilePool.Reached.opened (FilePool.created_opened fun _ => 0)).steps run
  refine ⟨pool, reached, logged, writer, ?_, stable⟩
  rw [FilePool.Pool.forceStep, stable]
  rfl

end Stasis
