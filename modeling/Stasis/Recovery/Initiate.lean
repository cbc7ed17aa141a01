import Stasis.Recovery.Analysis
import Stasis.Recovery.RepeatHistory
import Stasis.Recovery.Undo

/-!
Recovery after a crash, and the log of a single transaction.

A crash leaves the log and some images of the pages. Analysis and redo then
build the state in which the undo pass starts. For the log of one transaction
that did not end, the pass starts at the newest entry, and the slot of the
transaction points at that entry as well.
-/
namespace Stasis
open TransactionTable Database List
variable {C : Type} {ops : OperationTable C} {xid : Int} {log : Log}

/-- stasis_recovery_initiate up to its undo pass. -/
def stasisRecoveryInitiate (ops : OperationTable C) (log : Log) (disk : Pages C) :
    Option (Database C × UndoPoint) := do
  let rollbackLSNs ← stasisRecoveryAnalysis log.entries
  let (tbl, pages) ← stasisRecoveryRedo ops log.entries (init, disk)
  some (⟨log, tbl, pages, rollbackLSNs⟩, .outer)

/-- Every entry of the log belongs to transaction `xid`, and recovery can read it. -/
structure SoloLog (ops : OperationTable C) (xid : Int) (log : Log) : Prop where
  range : InRange xid
  own : ∀ e ∈ log.entries, e.xid = xid ∧ e.payload ≠ .internallog
  linked : Linked log.entries
  redoable : ∀ e ∈ log.entries, Redoable ops e

theorem lastOf_max (ordered : entries.Pairwise fun a b => a.LSN < b.LSN)
    (newest : lastOf entries xid = some last) (he : e ∈ entries) (own : e.xid = xid) :
    e.LSN ≤ last.LSN := by
  obtain ⟨front, eq⟩ := getLast?_eq_some_iff.mp newest
  have sorted := ordered.filter fun e => e.xid = xid
  have mem : e ∈ entries.filter fun e => e.xid = xid := mem_filter.mpr ⟨he, decide_eq_true own⟩
  rw [eq] at sorted mem
  cases mem_append.mp mem with
  | inl old => exact ((pairwise_append.mp sorted).2.2 e old last (mem_singleton_self last)).le
  | inr new => rw [mem_singleton.mp new]

namespace SoloLog

theorem empty (range : InRange xid) (none : log.entries = []) : SoloLog ops xid log := by
  refine ⟨range, ?_, ?_, ?_⟩
  · simp [none]
  · rw [none]
    exact .nil
  · simp [none]

theorem newest_write (log : Log) (prevLSN : Int) (p : Payload) :
    lastOf (log.writeEntry prevLSN xid p).entries xid =
      some (log.reserveEntry prevLSN xid p) := by
  simp

theorem write (solo : SoloLog ops xid log)
    (link : prevLSN ≤ 0 ∨ ∃ d ∈ log.entries, d.LSN = prevLSN) (kind : p ≠ .internallog)
    (redoable : Redoable ops (log.reserveEntry prevLSN xid p)) :
    SoloLog ops xid (log.writeEntry prevLSN xid p) := by
  refine ⟨solo.range, fun e he => ?_, .concat log.entries _ solo.linked kind solo.range ?_,
    fun e he => ?_⟩
  · rcases mem_append.mp he with he | he
    · exact solo.own e he
    · obtain rfl := mem_singleton.mp he
      exact ⟨rfl, kind⟩
  · intro last newest
    rcases link with link | ⟨d, hd, link⟩
    · have nonneg := log.LSN_nonneg (mem_of_lastOf newest).1
      exact link.trans nonneg
    · simp only [Log.reserveEntry_prevLSN, ← link]
      exact lastOf_max log.ordered newest hd (solo.own d hd).1
  · rcases mem_append.mp he with he | he
    · exact solo.redoable e he
    · obtain rfl := mem_singleton.mp he
      exact redoable

/-- Recovery of the log. The slot of an unfinished transaction and the start of the
undo pass are its newest entry. -/
theorem recover (solo : SoloLog ops xid log) (disk : Pages C) :
    ∃ tbl pages list, stasisRecoveryInitiate ops log disk =
        some (⟨log, tbl, pages, list⟩, .outer) ∧
      (∀ last, lastOf log.entries xid = some last → last.payload.Unfinished →
        list = [last.LSN] ∧ (tbl xid).xid = xid ∧ (tbl xid).prevLSN = last.LSN) ∧
      (∀ last, lastOf log.entries xid = some last → last.payload.Ends →
        list = [] ∧ (tbl xid).xid = invalidXtableXid) ∧
      (tbl xid).xidWhenFree = invalidXtableXid ∧
      (∀ p, (pages p).cell =
        StampedReplay.redo (log.entries.map (LogEntry.action ops p)) (disk p).cell) := by
  obtain ⟨list, analysis, sorted, scheduled⟩ :=
    stasisRecoveryAnalysis_run log.ordered fun e he kind => absurd kind (solo.own e he).2
  obtain ⟨tbl, pages, redo, reflects, cells⟩ :=
    stasisRecoveryRedo_run ops solo.linked solo.redoable disk
  have slot := reflects xid solo.range
  have members : ∀ last, lastOf log.entries xid = some last → ∀ lsn ∈ list,
      lsn = last.LSN ∧ last.payload.Unfinished := by
    intro last newest lsn mem
    obtain ⟨e, found, unfinished, same⟩ := (scheduled lsn).mp mem
    rw [(solo.own e (mem_of_lastOf found).1).1, newest] at found
    cases found
    exact ⟨same.symm, unfinished⟩
  refine ⟨tbl, pages, list, ?_, fun last newest unfinished => ?_, fun last newest ends => ?_,
    slot.1, cells⟩
  · simp [stasisRecoveryInitiate, analysis, redo]
  · have own := (mem_of_lastOf newest).2
    have mem : last.LSN ∈ list :=
      (scheduled last.LSN).mpr ⟨last, by rw [own]; exact newest, unfinished, rfl⟩
    have single : list = [last.LSN] := by
      cases list with
      | nil => exact absurd mem not_mem_nil
      | cons x xs =>
        have first := (members last newest x mem_cons_self).1
        cases xs with
        | nil => rw [first]
        | cons y ys =>
          have second := (members last newest y (by simp)).1
          have lt := (pairwise_cons.mp sorted).1 y mem_cons_self
          omega
    have active := slot.2
    rw [newest] at active
    simp only [unfinished.not_ends, if_false] at active
    exact ⟨single, active⟩
  · have free := slot.2
    rw [newest] at free
    simp only [ends, if_true] at free
    refine ⟨?_, free⟩
    cases list with
    | nil => rfl
    | cons x xs =>
      exact absurd ends (members last newest x mem_cons_self).2.not_ends

end SoloLog
end Stasis
