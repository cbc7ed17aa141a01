import Stasis.Recovery.Contents

/-!
Rollbacks with crashes.

A run of a rollback is a sequence of steps of the undo pass and crashes. A crash
leaves the log and images of the pages that are consistent with it, and recovery
begins the next pass from these. `Ready` is what a pass needs where it stands,
or what recovery needs at the newest record: the updates that the walk is going
to meet have not been compensated, rolling them back gives the wanted contents,
and every other update has its CLR.
-/
namespace Stasis
open TransactionTable Database Machine List
variable {C : Type} {ops : OperationTable C} {xid : Int} {s s' : Database C}

/-- The record is the CLR of the update at `lsn`. Dummy CLRs are CLRs of none. -/
def LogEntry.compensates (lsn : Int) (c : LogEntry) : Bool :=
  match c.payload with
  | .clrlog ce => ce.LSN ≠ invalidLsn ∧ ce.LSN = lsn
  | .internallog | .xcommit | .xabort | .xend | .xprepare _ | .updatelog _ => false

/-- How often the update at `lsn` has been undone. -/
def clrCount (log : Log) (lsn : Int) : Nat :=
  log.entries.countP (LogEntry.compensates lsn)

def LogEntry.UpdatesPage (e : LogEntry) : Prop :=
  ∃ u, e.payload = .updatelog u ∧ u.page ≠ invalidPage

/-- A crash in the middle of a logical undo, after an update that it logged, is safe
if the pass, which began when the log had `mark` entries, has compensated no
update of a page. -/
def CrashSafe (mark : Nat) (s : Database C) : UndoPoint → Prop
  | .logical _ _ _ =>
    (∃ e u, (s.log.entries.drop mark).getLast? = some e ∧ e.payload = .updatelog u) →
      ∀ c ∈ s.log.entries.drop mark, ∀ lsn, c.compensates lsn = false
  | .outer | .inner _ _ _ _ | .finished => True

/-- Images of the pages that a crash can leave: each reflects some part of the log,
and none is ahead of the log. -/
structure CrashImage (ops : OperationTable C) (base : Int → C) (log : Log) (disk : Pages C) :
    Prop where
  consistent : ∀ p, Consistent ops base log.entries p (disk p)
  below : ∀ p, (disk p).LSN < log.nextAvailableLSN

/-- The states of a rollback, with the length of the log at the start of the pass. -/
inductive RollbackRun (ops : OperationTable C) (base : Int → C)
    (Safe : Nat → Database C → UndoPoint → Prop) (start : Database C × UndoPoint) :
    Nat → Database C → UndoPoint → Prop
  | start : RollbackRun ops base Safe start start.1.log.entries.length start.1 start.2
  | step (mark : Nat) (s s' : Database C) (pt pt' : UndoPoint)
      (run : RollbackRun ops base Safe start mark s pt)
      (step : undoStep ops (s, pt) = some (s', pt')) :
      RollbackRun ops base Safe start mark s' pt'
  | crash (mark : Nat) (s s' : Database C) (pt pt' : UndoPoint) (disk : Pages C)
      (run : RollbackRun ops base Safe start mark s pt) (safe : Safe mark s pt)
      (image : CrashImage ops base s.log disk)
      (recover : stasisRecoveryInitiate ops s.log disk = some (s', pt')) :
      RollbackRun ops base Safe start s'.log.entries.length s' pt'

theorem RollbackRun.reaches (run : RollbackRun ops base Safe s₀ mark s pt)
    (more : Reaches (undoStep ops) (s, pt) st) : RollbackRun ops base Safe s₀ mark st.1 st.2 :=
  more.invariant (P := fun st => RollbackRun ops base Safe s₀ mark st.1 st.2)
    (fun _ _ run step => run.step _ _ _ _ _ step) run

theorem clrCount_writeEntry (log : Log) (prevLSN x : Int) (p : Payload) (lsn : Int) :
    clrCount (log.writeEntry prevLSN x p) lsn = clrCount log lsn +
      if (log.reserveEntry prevLSN x p).compensates lsn then 1 else 0 := by
  simp [clrCount, countP_append, countP_cons]

/-- What a pass that stands at `off` over contents `c` needs. -/
structure Ready (ops : OperationTable C) (xid : Int) (hist : List LogEntry) (fin : Int → C)
    (log : Log) (c : Int → C) (off : Int) (es : List LogEntry) : Prop where
  chain : Chain log off es
  doomed : ∀ e ∈ es, Doomed ops xid e ∧ ∀ recLSN, e.payload ≠ .xprepare recLSN
  outcome : ops.rollback es c = fin
  pending : ∀ e ∈ es, e.UpdatesPage → clrCount log e.LSN = 0
  done : ∀ e ∈ hist, e.UpdatesPage → e ∈ es ∨ clrCount log e.LSN = 1

namespace Ready
variable {fin c : Int → C} {log : Log}

section
variable (ready : Ready ops xid hist fin log c off es)
include ready

theorem write (prevLSN x : Int)
    (silent : ∀ lsn, (log.reserveEntry prevLSN x p).compensates lsn = false) :
    Ready ops xid hist fin (log.writeEntry prevLSN x p) c off es := by
  have count : ∀ lsn, clrCount (log.writeEntry prevLSN x p) lsn = clrCount log lsn := by
    intro lsn
    simp [clrCount_writeEntry, silent lsn]
  refine ⟨chain_writeEntry ready.chain _ _ _, ready.doomed, ready.outcome, fun e he update => ?_,
    fun e he update => ?_⟩
  · rw [count]
    exact ready.pending e he update
  · rw [count]
    exact ready.done e he update

theorem visit (pos : 0 < off) (read : log.readEntry off = some e) :
    ∃ rest, es = e :: rest ∧ Chain log e.prevLSN rest := by
  have chain := ready.chain
  cases chain with
  | stop _ h => exact absurd pos h
  | visit _ d rest _ read' tail =>
    cases read.symm.trans read'
    exact ⟨rest, rfl, tail⟩

theorem stop (stop : ¬ 0 < off) : c = fin ∧ ∀ e ∈ hist, e.UpdatesPage → clrCount log e.LSN = 1 := by
  have chain := ready.chain
  cases chain with
  | stop _ _ =>
    refine ⟨ready.outcome, fun e he update => ?_⟩
    cases ready.done e he update with
    | inl ahead => exact absurd ahead not_mem_nil
    | inr done => exact done
  | visit _ _ _ pos _ _ => exact absurd pos stop

end

section
variable (ready : Ready ops xid hist fin log c off (e :: es)) (rest : Chain log e.prevLSN es)
include ready rest

theorem pass (other : ¬ e.UpdatesPage) (same : ops.rollback es c' = ops.rollback (e :: es) c) :
    Ready ops xid hist fin log c' e.prevLSN es := by
  refine ⟨rest, fun d hd => ready.doomed d (.tail e hd), same.trans ready.outcome,
    fun d hd => ready.pending d (.tail e hd), fun d hd update => ?_⟩
  cases ready.done d hd update with
  | inl ahead =>
    cases ahead with
    | head => exact absurd update other
    | tail _ ahead => exact .inl ahead
  | inr done => exact .inr done

theorem undo (payload : e.payload = .updatelog u) (physical : u.page ≠ invalidPage)
    (mem : e ∈ log.entries) :
    Ready ops xid hist fin
      (log.writeEntry e.prevLSN e.xid (.clrlog ⟨e.LSN, e.prevLSN, e.xid, u⟩))
      (ops.undoOn e.xid u c) e.prevLSN es := by
  have update : e.UpdatesPage := ⟨u, payload, physical⟩
  have valid : e.LSN ≠ invalidLsn := by
    have nonneg := log.LSN_nonneg mem
    simp only [invalidLsn]
    omega
  have count : ∀ lsn, clrCount (log.writeEntry e.prevLSN e.xid
      (.clrlog ⟨e.LSN, e.prevLSN, e.xid, u⟩)) lsn =
      clrCount log lsn + if e.LSN = lsn then 1 else 0 := by
    intro lsn
    simp [clrCount_writeEntry, LogEntry.compensates, valid]
  have sorted := (chain_sorted ready.chain fun d hd => (ready.doomed d hd).1.2.1).2
  have older := (pairwise_cons.mp sorted).1
  refine ⟨chain_writeEntry rest _ _ _, fun d hd => ready.doomed d (.tail e hd), ?_,
    fun d hd updates => ?_, fun d hd updates => ?_⟩
  · have outcome := ready.outcome
    rw [rollback_cons_update payload, OperationTable.compensate, if_neg physical] at outcome
    exact outcome
  · have apart : e.LSN ≠ d.LSN := (older d hd).ne'
    rw [count, if_neg apart]
    exact ready.pending d (.tail e hd) updates
  · rw [count]
    cases ready.done d hd updates with
    | inl ahead =>
      cases ahead with
      | head =>
        have none := ready.pending e mem_cons_self update
        simp [none]
      | tail _ ahead => exact .inl ahead
    | inr done =>
      have none := ready.pending e mem_cons_self update
      have apart : e.LSN ≠ d.LSN := by
        intro same
        rw [same] at none
        omega
      rw [if_neg apart]
      exact .inr done

end

theorem clr (ready : Ready ops xid hist fin (log.writeEntry off xid (.clrlog ce)) c off es)
    (pos : 0 < log.nextAvailableLSN) (below : off < log.nextAvailableLSN) :
    Ready ops xid hist fin (log.writeEntry off xid (.clrlog ce)) c log.nextAvailableLSN
      (log.reserveEntry off xid (.clrlog ce) :: es) := by
  refine ⟨.visit _ _ es pos ?_ ready.chain, fun e he => ?_, ?_, fun e he update => ?_,
    fun e he update => ?_⟩
  · exact (log.writeEntry off xid (.clrlog ce)).readEntry_of_mem
      (mem_append_right _ (mem_singleton_self _))
  · cases he with
    | head => simp [Doomed, below]
    | tail _ he => exact ready.doomed e he
  · rw [rollback_cons_other rfl]
    exact ready.outcome
  · cases he with
    | head => simp [LogEntry.UpdatesPage] at update
    | tail _ he => exact ready.pending e he update
  · cases ready.done e he update with
    | inl ahead => exact .inl (.tail _ ahead)
    | inr done => exact .inr done

theorem issue (ready : Ready ops xid hist fin log c off es) (physical : v.page ≠ invalidPage)
    (hop : ops.Undoable v.funcID) (back : ops.undoOn xid v (ops.doOn xid v c) = c)
    (pos : 0 < log.nextAvailableLSN) (below : off < log.nextAvailableLSN)
    (fresh : clrCount log log.nextAvailableLSN = 0) :
    Ready ops xid hist fin (log.writeEntry off xid (.updatelog v)) (ops.doOn xid v c)
      log.nextAvailableLSN (log.reserveEntry off xid (.updatelog v) :: es) := by
  have grown := ready.write off xid (p := .updatelog v) fun lsn => rfl
  refine ⟨.visit _ _ es pos ?_ grown.chain, fun e he => ?_, ?_, fun e he update => ?_,
    fun e he update => ?_⟩
  · exact (log.writeEntry off xid (.updatelog v)).readEntry_of_mem
      (mem_append_right _ (mem_singleton_self _))
  · cases he with
    | head => exact ⟨⟨rfl, below, hop⟩, by simp⟩
    | tail _ he => exact ready.doomed e he
  · rw [rollback_cons_update rfl, OperationTable.compensate, if_neg physical]
    simp only [Log.reserveEntry_xid, back]
    exact ready.outcome
  · cases he with
    | head => simpa [clrCount_writeEntry, LogEntry.compensates] using fresh
    | tail _ he => exact grown.pending e he update
  · cases grown.done e he update with
    | inl ahead => exact .inl (.tail _ ahead)
    | inr done => exact .inr done

end Ready

/-- What recovery and the pass rely on in the log. -/
structure LogFacts (ops : OperationTable C) (xid : Int) (base : Int → C) (s : Database C) :
    Prop where
  solo : SoloLog ops xid s.log
  durable : s.log.logType ≠ .logToMemory
  replayed : Replayed ops base s
  repeatable : ∀ e ∈ s.log.entries, ∀ u, e.payload = .updatelog u → u.page ≠ invalidPage →
    Repeatable ops u
  once : ∀ lsn, clrCount s.log lsn ≤ 1
  fresh : ∀ lsn, s.log.nextAvailableLSN ≤ lsn → clrCount s.log lsn = 0

theorem LogFacts.next_pos (facts : LogFacts ops xid base s) : 0 < s.log.nextAvailableLSN :=
  lt_of_lt_of_le (durable_firstLSN facts.durable) s.log.next

theorem LogFacts.write (facts : LogFacts ops xid base s)
    (log : s'.log = s.log.writeEntry prevLSN xid p) (replayed : Replayed ops base s')
    (link : prevLSN ≤ 0 ∨ ∃ d ∈ s.log.entries, d.LSN = prevLSN) (kind : p ≠ .internallog)
    (redoable : Redoable ops (s.log.reserveEntry prevLSN xid p))
    (repeatable : ∀ u, p = .updatelog u → u.page ≠ invalidPage → Repeatable ops u)
    (first : ∀ lsn, (s.log.reserveEntry prevLSN xid p).compensates lsn = true →
      lsn < s.log.nextAvailableLSN ∧ clrCount s.log lsn = 0) : LogFacts ops xid base s' := by
  refine ⟨?_, ?_, replayed, ?_, ?_, ?_⟩
  · rw [log]
    exact facts.solo.write link kind redoable
  · rw [log]
    exact facts.durable
  · rw [log]
    intro e he u payload page
    cases mem_append.mp he with
    | inl he => exact facts.repeatable e he u payload page
    | inr he =>
      rw [mem_singleton.mp he] at payload
      exact repeatable u payload page
  · intro lsn
    rw [log, clrCount_writeEntry]
    by_cases hit : (s.log.reserveEntry prevLSN xid p).compensates lsn = true
    · simp [hit, (first lsn hit).2]
    · simpa [hit] using facts.once lsn
  · intro lsn above
    rw [log] at above ⊢
    have next := s.log.nextAvailableLSN_lt_writeEntry prevLSN xid p
    rw [clrCount_writeEntry, facts.fresh lsn (by omega)]
    by_cases hit : (s.log.reserveEntry prevLSN xid p).compensates lsn = true
    · have low := (first lsn hit).1
      omega
    · simp [hit]

end Stasis
