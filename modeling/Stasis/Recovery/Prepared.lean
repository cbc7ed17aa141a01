import Stasis.Recovery.Solo

/-!
Aborted transactions that had been prepared.

The undo pass stops at a prepare record unless it has passed an XABORT record on
its way. The CLRs of a rollback point behind the XABORT record, so a rollback
that was cut short by a crash is resumed without it: whether the transaction is
forgotten then depends on the prepare records below the last compensated update.
-/
namespace Stasis
open TransactionTable Database Machine List
variable {C : Type} {ops : OperationTable C} {xid : Int} {s : Database C}

/-- A transaction that updates pages and prepares, in any order. -/
def Call.UpdatesOrPrepares (ops : OperationTable C) : Call → Prop
  | .update u => Physical ops u
  | .prepare => True
  | .beginNta _ _ | .endNta => False

theorem Call.UpdatesOrPrepares.sound {c : Call} (h : c.UpdatesOrPrepares ops) :
    c.Sound ops := by
  cases c with
  | update u => exact h
  | prepare => trivial
  | beginNta _ _ | endNta => exact absurd h id

/-- No prepare record lies below the update that the newest record of the
transaction compensates. -/
def NoPrepareBelow (xid : Int) (log : Log) : Prop :=
  ∀ c ce, lastOf log.entries xid = some c → c.payload = .clrlog ce →
    ∀ p ∈ log.entries, ∀ recLSN, p.payload = .xprepare recLSN → ce.LSN < p.LSN

/-- The entries of a transaction that only updated pages and prepared. -/
def UpdateOrPrepare (ops : OperationTable C) (e : LogEntry) : Prop :=
  (∃ u, e.payload = .updatelog u ∧ Physical ops u) ∨ ∃ recLSN, e.payload = .xprepare recLSN

/-- The log is the history of the transaction. -/
structure PlainHistory (ops : OperationTable C) (s : Database C) (g : Session) : Prop where
  entries : s.log.entries = g.outstanding.reverse
  kinds : ∀ e ∈ g.outstanding, UpdateOrPrepare ops e

variable {a e : LogEntry} {hist : List LogEntry}

theorem PlainHistory.runCalls (plain : PlainHistory ops s g)
    (kinds : ∀ c ∈ calls, c.UpdatesOrPrepares ops) (run : runCalls ops xid calls (s, g) = some st) :
    PlainHistory ops st.1 st.2 := by
  refine Fallible.foldlM_some_invariant (P := fun st => PlainHistory ops st.1 st.2) plain
    (fun st c hc ⟨s₁, g₁⟩ plain first => ?_) run
  have kind := kinds c hc
  obtain ⟨_, _, effect⟩ := call_eq_some first
  cases effect with
  | update u s₁ accepted =>
    obtain ⟨_, _, pages, rfl⟩ := tupdate_eq_some accepted
    refine ⟨by simp [stasisLogWriteUpdate, plain.entries], fun e he => ?_⟩
    cases he with
    | head => exact .inl ⟨u, rfl, kind⟩
    | tail _ he => exact plain.kinds e he
  | prepared =>
    refine ⟨by simp [stasisLogWritePrepare, plain.entries], fun e he => ?_⟩
    cases he with
    | head => exact .inr ⟨_, rfl⟩
    | tail _ he => exact plain.kinds e he
  | begun op args => exact absurd kind id
  | ended handle before opened nested => exact absurd kind id

/-- Where recovery would resume the rollback of a transaction with outstanding
entries `hist`: at the XABORT record, in front of all of them, or at the CLR of
one of them, in front of the older ones. -/
def ResumesAt (xid : Int) (hist : List LogEntry) (log : Log) (last : LogEntry)
    (resume : List LogEntry) : Prop :=
  lastOf log.entries xid = some last ∧ Chain log last.prevLSN resume ∧
  last.prevLSN < last.LSN ∧
  ((last.payload = .xabort ∧ resume = hist) ∨
    ∃ e u newer, hist = newer ++ e :: resume ∧ e.payload = .updatelog u ∧
      last.payload = .clrlog ⟨e.LSN, e.prevLSN, e.xid, u⟩ ∧
      ∀ d ∈ newer ++ [e], Compensated log d)

/-- The entries that the rollback of a plain history visits. -/
structure PlainEntries (ops : OperationTable C) (xid : Int) (a : LogEntry)
    (hist : List LogEntry) : Prop where
  abort : a.payload = .xabort
  kinds : ∀ e ∈ hist, UpdateOrPrepare ops e
  doomed : ∀ e ∈ hist, Doomed ops xid e
  sorted : hist.Pairwise fun d e => e.LSN < d.LSN

theorem PlainEntries.physical (plain : PlainEntries ops xid a hist) (he : e ∈ a :: hist)
    (payload : e.payload = .updatelog u) : e ∈ hist ∧ Physical ops u := by
  cases he with
  | head =>
    rw [plain.abort] at payload
    cases payload
  | tail _ he =>
    refine ⟨he, ?_⟩
    cases plain.kinds e he with
    | inl update =>
      obtain ⟨v, payload', physical⟩ := update
      rw [payload] at payload'
      obtain rfl := Payload.updatelog.inj payload'
      exact physical
    | inr prepare =>
      obtain ⟨recLSN, payload'⟩ := prepare
      rw [payload] at payload'
      cases payload'

theorem PlainEntries.live (plain : PlainEntries ops xid a hist) (he : e ∈ hist) :
    e.payload ≠ .xabort := by
  cases plain.kinds e he with
  | inl update =>
    obtain ⟨u, payload, _⟩ := update
    simp [payload]
  | inr prepare =>
    obtain ⟨recLSN, payload⟩ := prepare
    simp [payload]

/-- What the rollback of a plain history keeps: while it holds its slot recovery can
read the log and resume; afterwards the transaction has ended. -/
structure PlainRollback (ops : OperationTable C) (xid : Int) (a : LogEntry)
    (hist : List LogEntry) (s : Database C) (pt : UndoPoint) : Prop where
  rollback : ∃ rank, Rollback ops xid (a :: hist) rank s pt
  solo : SoloLog ops xid s.log
  durable : s.log.logType ≠ .logToMemory
  prepares : ∀ p ∈ s.log.entries, ∀ recLSN, p.payload = .xprepare recLSN → p ∈ hist
  held : Holds s pt → ∃ last resume, ResumesAt xid hist s.log last resume
  ended : ¬ Holds s pt → ∃ last, lastOf s.log.entries xid = some last ∧ last.payload = .xend

namespace PlainRollback

theorem prepares_write (inv : PlainRollback ops xid a hist s pt) (prevLSN : Int)
    (other : ∀ recLSN, p ≠ .xprepare recLSN) :
    ∀ e ∈ (s.log.writeEntry prevLSN xid p).entries, ∀ recLSN,
      e.payload = .xprepare recLSN → e ∈ hist := by
  intro e he recLSN payload
  cases mem_append.mp he with
  | inl he => exact inv.prepares e he recLSN payload
  | inr he =>
    rw [mem_singleton.mp he] at payload
    exact absurd payload (other recLSN)

theorem same (inv : PlainRollback ops xid a hist s pt) (log : s'.log = s.log)
    (holds : Holds s' pt' ↔ Holds s pt)
    (rollback : ∃ rank, Rollback ops xid (a :: hist) rank s' pt') :
    PlainRollback ops xid a hist s' pt' := by
  refine ⟨rollback, ?_, ?_, ?_, ?_, ?_⟩
  · rw [log]
    exact inv.solo
  · rw [log]
    exact inv.durable
  · rw [log]
    exact inv.prepares
  · rw [holds, log]
    exact inv.held
  · rw [holds, log]
    exact inv.ended

theorem undo (plain : PlainEntries ops xid a hist)
    (inv : PlainRollback ops xid a hist s (.inner off thisXid ra false)) (pos : 0 < off)
    (read : s.log.readEntry off = some e) (payload : e.payload = .updatelog u)
    (log : s'.log = s.log.writeEntry e.prevLSN e.xid (.clrlog ⟨e.LSN, e.prevLSN, e.xid, u⟩))
    (rollback : ∃ rank, Rollback ops xid (a :: hist) rank s' (.inner e.prevLSN e.xid ra false)) :
    PlainRollback ops xid a hist s' (.inner e.prevLSN e.xid ra false) := by
  obtain ⟨rank, before⟩ := inv.rollback
  obtain ⟨todo, rest, rolling, _⟩ := rollback_visited before pos read
  obtain ⟨mem, physical⟩ := plain.physical (mem_full_of_rolling rolling) payload
  obtain ⟨own, down, _⟩ := (rolling.ahead e mem_cons_self).1
  obtain ⟨past, split, done⟩ := rolling.split
  have here := log ▸ chain_writeEntry rest e.prevLSN e.xid
    (.clrlog ⟨e.LSN, e.prevLSN, e.xid, u⟩)
  subst own
  have below := s.log.below e (s.log.readEntry_eq_some_iff.mp read).1
  refine ⟨rollback, ?_, ?_, ?_, fun _ => ?_, fun gone => absurd trivial gone⟩
  · rw [log]
    exact inv.solo.write (chain_link rest) (by simp) (Physical.redoable_clr physical _ _ _)
  · rw [log]
    exact inv.durable
  · rw [log]
    exact inv.prepares_write _ (by simp)
  · cases past with
    | nil =>
      obtain ⟨rfl, _⟩ := List.cons.inj split
      rw [plain.abort] at payload
      cases payload
    | cons b newer =>
      obtain ⟨rfl, older⟩ := List.cons.inj split
      refine ⟨s.log.reserveEntry e.prevLSN e.xid _, todo, ?_, here, ?_,
        .inr ⟨e, u, newer, older, payload, rfl, fun d hd => ?_⟩⟩
      · rw [log]
        exact SoloLog.newest_write _ _ _
      · exact down.trans below
      · rw [log]
        cases mem_append.mp hd with
        | inl hd => exact compensated_writeEntry (done d (by simp [hd])) _ _ _
        | inr hd =>
          obtain rfl := mem_singleton.mp hd
          simp only [Compensated, payload, physical.1, if_false]
          exact ⟨_, mem_append_right _ (mem_singleton_self _), rfl, rfl, rfl⟩

theorem stop (inv : PlainRollback ops xid a hist s (.inner off thisXid ra false))
    (stop : ¬ 0 < off) (forget : tforget s thisXid = some s')
    (rollback : ∃ rank, Rollback ops xid (a :: hist) rank s' .outer) :
    PlainRollback ops xid a hist s' .outer := by
  obtain ⟨rank, before⟩ := inv.rollback
  obtain ⟨rolling, own⟩ := rollback_stopped before stop
  subst own
  obtain ⟨tbl, run, _⟩ := tforget_of_active s rolling.range rolling.active
  rw [forget] at run
  cases run
  have idle : s.rollbackLSNs = [] := before.1
  refine ⟨rollback, ?_, inv.durable, inv.prepares_write _ (by simp),
    fun held => absurd idle held, fun _ => ⟨_, SoloLog.newest_write _ _ _, rfl⟩⟩
  exact inv.solo.write (.inr rolling.slot) (by simp) trivial

section
variable (closed : ops.Closed) (plain : PlainEntries ops xid a hist)
  (inv : PlainRollback ops xid a hist s pt)
include closed plain inv

theorem step (step : undoStep ops (s, pt) = some (s', pt')) :
    PlainRollback ops xid a hist s' pt' := by
  obtain ⟨rank, before⟩ := inv.rollback
  have rollback := rollback_step closed before step
  cases undoStep_eq_some step with
  | idle none => exact inv.same rfl (by simp [Holds, none]) rollback
  | take first rest list => exact inv.same rfl (by simp [Holds, list]) rollback
  | leave off thisXid ra => exact absurd before.2.1 (by simp)
  | stop off thisXid ra s' stop forget => exact inv.stop stop forget rollback
  | skip off thisXid ra ra' e pos read skipped => exact inv.same rfl Iff.rfl rollback
  | prepared off thisXid recLSN e tbl pos read payload roll =>
    obtain ⟨todo, _, _, passable⟩ := rollback_visited before pos read
    simp [Passable, payload] at passable
  | undo off thisXid ra e u s' pos read payload physical undo =>
    obtain ⟨tbl, pages, rfl, _⟩ := undoPhysical_eq_some undo
    exact inv.undo plain pos read payload rfl rollback
  | enter off thisXid ra e u op undo pos read payload logical hop hundo =>
    obtain ⟨todo, _, rolling, _⟩ := rollback_visited before pos read
    have physical := (plain.physical (mem_full_of_rolling rolling) payload).2
    exact absurd logical physical.1
  | issue e u pending ra s' issue =>
    obtain ⟨_, _, d, todo, _, payload, logical, _, _, _, rolling, _⟩ := before
    have physical := (plain.physical (mem_full_of_rolling rolling) payload).2
    exact absurd logical physical.1
  | close e ra =>
    obtain ⟨_, _, d, todo, _, payload, logical, _, _, _, rolling, _⟩ := before
    have physical := (plain.physical (mem_full_of_rolling rolling) payload).2
    exact absurd logical physical.1
  | finished => exact inv

theorem run (run : Reaches (undoStep ops) (s, pt) (s', pt')) :
    PlainRollback ops xid a hist s' pt' :=
  run.invariant (P := fun st => PlainRollback ops xid a hist st.1 st.2)
    (fun _ _ inv one => inv.step closed plain one) inv

end

end PlainRollback

theorem plainRollback_abort (inv : SoloSession ops xid s g) (plain : PlainHistory ops s g)
    (logged : g.outstanding ≠ []) :
    tabort s xid = some (SoloSession.abortLogged s xid, .outer) ∧
      PlainEntries ops xid (SoloSession.abortEntry s xid) g.outstanding ∧
      PlainRollback ops xid (SoloSession.abortEntry s xid) g.outstanding
        (SoloSession.abortLogged s xid) .outer := by
  obtain ⟨run, next, rank, rollback⟩ := inv.abort logged
  have down : ∀ e ∈ g.outstanding, e.prevLSN < e.LSN :=
    fun e he => (backed_mem inv.session.backed he).2
  have chain := chain_of_backed inv.session.backed
  rw [filter_eq_self.mpr fun e he => by
    simpa using durable_pos inv.durable (backed_mem inv.session.backed he).1] at chain
  refine ⟨run, ⟨rfl, plain.kinds, fun e he => ⟨(inv.session.running e he).1, down e he, ?_⟩,
    (chain_sorted chain down).2⟩, ⟨rank, rollback⟩, next.solo, next.durable, ?_, fun _ => ?_, ?_⟩
  · have kind := (inv.session.running e he).2
    cases payload : e.payload <;> simp_all
  · intro p hp recLSN payload
    cases mem_append.mp hp with
    | inl hp =>
      rw [plain.entries] at hp
      exact mem_reverse.mp hp
    | inr hp =>
      rw [mem_singleton.mp hp] at payload
      cases payload
  · refine ⟨SoloSession.abortEntry s xid, g.outstanding, SoloLog.newest_write _ _ _,
      chain_writeEntry chain _ _ _, ?_, .inl ⟨rfl, rfl⟩⟩
    exact backed_lt_next inv.session.backed
  · intro gone
    exact absurd (by simp [Holds, SoloSession.abortLogged]) gone

end Stasis
