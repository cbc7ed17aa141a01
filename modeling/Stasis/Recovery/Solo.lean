import Stasis.Library.Fallible
import Stasis.Recovery.Initiate
import Stasis.Recovery.Rollback

/-!
A transaction that has a durable log to itself, up to the start of its rollback.

Its calls keep the log readable for recovery, and an abort leaves the undo pass
at the XABORT record with every outstanding entry in front of it.
-/
namespace Stasis
open TransactionTable Database Machine
variable {C : Type} {ops : OperationTable C} {xid : Int}

/-- An update of one page that has a page LSN, by registered operations. -/
def Physical (ops : OperationTable C) (u : UpdateLogEntry) : Prop :=
  u.page ≠ invalidPage ∧ u.page ≠ segmentPageid ∧ u.page ≠ multiPageid ∧
  u.funcID ≠ operationSetLsnFree ∧ u.funcID ≠ operationSetLsnFreeInverse ∧
  ∃ op redo undo, ops u.funcID = some op ∧ ops op.redo = some redo ∧ ops op.undo = some undo

theorem Physical.load (physical : Physical ops u) : loadPageForOperation u.page = some u.page := by
  simp [loadPageForOperation, physical.2.1, physical.2.2.1]

theorem Physical.redoable_update (physical : Physical ops u) (lsn prevLSN x : Int) :
    Redoable ops ⟨lsn, prevLSN, x, .updatelog u⟩ := by
  obtain ⟨_, headered, _, free, inverse, op, redo, _, hop, hredo, _⟩ := physical
  exact .inr ⟨headered, free, inverse, op, redo, hop, hredo⟩

theorem Physical.redoable_clr (physical : Physical ops ce.update) (lsn prevLSN x : Int) :
    Redoable ops ⟨lsn, prevLSN, x, .clrlog ce⟩ := by
  obtain ⟨_, headered, single, _, _, op, _, undo, hop, _, hundo⟩ := physical
  exact .inr (.inr ⟨headered, op, undo, hop, hundo, fun multi => absurd multi single⟩)

def Call.Sound (ops : OperationTable C) : Call → Prop
  | .update u => Physical ops u
  | .beginNta op _ => ops.Undoable op
  | .endNta | .prepare => True

theorem Physical.undoable (physical : Physical ops u) : ops.Undoable u.funcID := by
  obtain ⟨_, _, _, _, _, op, _, undo, hop, _, hundo⟩ := physical
  exact ⟨op, undo, hop, hundo⟩

theorem Call.Sound.registered {c : Call} (sound : c.Sound ops) : c.Registered ops := by
  cases c with
  | beginNta op args => exact sound
  | update u => exact sound.undoable
  | endNta | prepare => trivial

def runCalls (ops : OperationTable C) (xid : Int) (calls : List Call)
    (st : Database C × Session) : Option (Database C × Session) :=
  calls.foldlM (fun st c => call ops xid st.1 st.2 c) st

/-- The database just after Tbegin, with an empty log on disk. -/
structure Begun (xid : Int) (s : Database C) : Prop where
  empty : s.log.entries = []
  idle : s.rollbackLSNs = []
  durable : s.log.logType ≠ .logToMemory
  start : ∃ s₀, tbegin s₀ xid = some s

/-- A transaction on counters that has just begun, over a safe-writes log. -/
def countersBegun : Database Int :=
  ⟨Log.empty .logToFile, init.set 0 ⟨0, invalidLsn, invalidLsn, reservedXtableXid⟩,
    fun _ => ⟨0, 0⟩, []⟩

theorem countersBegun_begun : Begun 0 countersBegun :=
  ⟨rfl, rfl, by decide, ⟨Log.empty .logToFile, init, fun _ => ⟨0, 0⟩, []⟩, rfl⟩

structure SoloSession (ops : OperationTable C) (xid : Int) (s : Database C) (g : Session) :
    Prop where
  session : SessionInv ops xid s g
  solo : SoloLog ops xid s.log
  idle : s.rollbackLSNs = []
  durable : s.log.logType ≠ .logToMemory
  whenFree : (s.tbl xid).xidWhenFree < 0
  physical : ∀ e ∈ s.log.entries, ∀ u, e.payload = .updatelog u → u.page ≠ invalidPage →
    Physical ops u

theorem durable_firstLSN {t : LogType} (durable : t ≠ .logToMemory) : 0 < t.firstLSN := by
  cases t with
  | logToMemory => exact absurd rfl durable
  | logToFile | logToDir => decide

theorem durable_pos {log : Log} (durable : log.logType ≠ .logToMemory) (he : e ∈ log.entries) :
    0 < e.LSN :=
  lt_of_lt_of_le (durable_firstLSN durable) (log.start e he)

namespace SoloSession
variable {s : Database C}

theorem start (begun : Begun xid s) : SoloSession ops xid s Session.start := by
  obtain ⟨s₀, start⟩ := begun.start
  unfold tbegin at start
  split at start
  next free =>
    have slot : s.tbl xid = ⟨xid, invalidLsn, invalidLsn, reservedXtableXid⟩ := by
      rw [← Option.some.inj start]
      simp
    refine ⟨⟨free.1, by rw [slot], ?_, by simp [Session.start], by simp [Session.start]⟩,
      .empty free.1 begun.empty, begun.idle, begun.durable, by rw [slot]; simp [reservedXtableXid],
      by simp [begun.empty]⟩
    rw [slot]
    exact .nil
  next => exact absurd start (by simp)

section
variable (inv : SoloSession ops xid s g)
include inv

theorem logWrite {prevLSN : Int} (pages : Pages C)
    (session : SessionInv ops xid (s.logWrite xid prevLSN p) g')
    (link : prevLSN ≤ 0 ∨ ∃ d ∈ s.log.entries, d.LSN = prevLSN) (kind : p ≠ .internallog)
    (redoable : Redoable ops (s.log.reserveEntry prevLSN xid p))
    (physical : ∀ u, p = .updatelog u → u.page ≠ invalidPage → Physical ops u) :
    SoloSession ops xid { s.logWrite xid prevLSN p with pages := pages } g' := by
  refine ⟨session.pages pages, inv.solo.write link kind redoable, inv.idle, inv.durable,
    by simpa using inv.whenFree, fun e he u payload page => ?_⟩
  rcases List.mem_append.mp he with he | he
  · exact inv.physical e he u payload page
  · obtain rfl := List.mem_singleton.mp he
    exact physical u payload page

theorem call (sound : c.Sound ops) (run : call ops xid s g c = some (s', g')) :
    SoloSession ops xid s' g' := by
  obtain ⟨_, _, effect⟩ := call_eq_some run
  have session := sessionInv_call inv.session sound.registered effect
  cases effect with
  | update u s' accepted =>
    obtain ⟨_, _, pages, rfl⟩ := tupdate_eq_some accepted
    exact inv.logWrite pages (session.pages s.pages) (backed_link inv.session.backed)
      (by simp) (sound.redoable_update _ _ _) fun v same _ => by
        obtain rfl := Payload.updatelog.inj same
        exact sound
  | begun op args =>
    exact ⟨session, inv.solo, inv.idle, inv.durable, inv.whenFree, inv.physical⟩
  | ended handle before opened nested =>
    obtain ⟨backed, _, logical, _⟩ := inv.session.opened (handle, before) (by simp [nested])
    exact inv.logWrite s.pages session (backed_link backed) (by simp) (.inl logical)
      fun v same page => by
        obtain rfl := Payload.updatelog.inj same
        exact absurd logical page
  | prepared =>
    exact inv.logWrite s.pages session (backed_link inv.session.backed) (by simp) trivial
      fun v same => by cases same

theorem runCalls (sound : ∀ c ∈ calls, c.Sound ops)
    (run : runCalls ops xid calls (s, g) = some st) : SoloSession ops xid st.1 st.2 :=
  Fallible.foldlM_some_invariant (P := fun st => SoloSession ops xid st.1 st.2) inv
    (fun _ c hc _ inv first => inv.call (sound c hc) first) run

theorem prevLSN_eq_invalid_iff : (s.tbl xid).prevLSN = invalidLsn ↔ g.outstanding = [] := by
  have backed := inv.session.backed
  constructor
  · intro none
    exact backed_eq_nil_of_neg backed (by rw [none]; decide)
  · intro none
    rw [none] at backed
    generalize (s.tbl xid).prevLSN = lsn at backed
    cases backed
    rfl

end

/-- The XABORT record of an abort, newest of the entries that its rollback visits. -/
def abortEntry (s : Database C) (xid : Int) : LogEntry :=
  s.log.reserveEntry (s.tbl xid).prevLSN xid .xabort

def abortLogged (s : Database C) (xid : Int) : Database C :=
  { s.stasisLogWriteCommon xid .xabort with rollbackLSNs := [s.log.nextAvailableLSN] }

theorem abort (inv : SoloSession ops xid s g) (logged : g.outstanding ≠ []) :
    tabort s xid = some (abortLogged s xid, .outer) ∧
      SoloSession ops xid (s.stasisLogWriteCommon xid .xabort)
        ⟨abortEntry s xid :: g.outstanding, []⟩ ∧
      ∃ rank, Rollback ops xid (abortEntry s xid :: g.outstanding) rank (abortLogged s xid)
        .outer := by
  have session : SessionInv ops xid (s.stasisLogWriteCommon xid .xabort)
      ⟨abortEntry s xid :: g.outstanding, []⟩ :=
    inv.session.logWrite inv.session.backed inv.session.running ⟨rfl, trivial⟩ (by simp)
  have next : SoloSession ops xid (s.stasisLogWriteCommon xid .xabort)
      ⟨abortEntry s xid :: g.outstanding, []⟩ :=
    inv.logWrite s.pages session (backed_link inv.session.backed) (by simp) trivial
      fun v same => by cases same
  have positive : ∀ e ∈ abortEntry s xid :: g.outstanding, 0 < e.LSN := fun e he =>
    durable_pos next.durable (backed_mem session.backed he).1
  have pos : 0 < s.log.nextAvailableLSN := positive _ List.mem_cons_self
  obtain ⟨newest, rank, rollback⟩ := rollback_start session rfl rfl pos
  rw [List.filter_eq_self.mpr fun e he => by simpa using positive e he] at rollback
  have slot : ((s.stasisLogWriteCommon xid .xabort).tbl xid).prevLSN =
      s.log.nextAvailableLSN := newest
  refine ⟨?_, next, rank, ?_⟩
  · have valid : (s.tbl xid).prevLSN ≠ invalidLsn := fun none =>
      logged (inv.prevLSN_eq_invalid_iff.mp none)
    have idle : (s.stasisLogWriteCommon xid .xabort).rollbackLSNs = [] := inv.idle
    simp [tabort, TransactionTable.get, inv.session.range, inv.session.active, valid, undoTrans,
      idle, slot, pos, abortLogged]
  · rw [slot] at rollback
    exact rollback

end SoloSession
end Stasis
