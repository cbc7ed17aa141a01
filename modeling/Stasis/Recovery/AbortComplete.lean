import Mathlib.Tactic.Tauto
import Stasis.Operations.Counter
import Stasis.Recovery.Interleaving

/-!
An abort compensates everything that its transaction had outstanding, unless the
log handed out LSN zero.

The in-memory log gives its first entry the LSN zero, and the walk over
previousInTransaction stops in front of it. With the other logs, and whenever
that entry does not belong to the aborted transaction or was closed by a nested
top action, the walk is complete, whatever other transactions do meanwhile.
-/
namespace Stasis
open TransactionTable Database Machine Function List Option
variable {C : Type} {ops : OperationTable C} {w : World C}

theorem localWrite_logWrite (s : Database C) (prevLSN : Int) (other : ∀ ce, p ≠ .clrlog ce)
    (pages : Pages C) : LocalWrite xid s { s.logWrite xid prevLSN p with pages := pages } :=
  ⟨.inr ⟨prevLSN, p, rfl, other⟩, fun _ ne => logWrite_tbl_of_ne s xid prevLSN p ne, rfl⟩

theorem localWrite_call (zero : ZeroFirst xid (w.sessions xid) w.db.log)
    (effect : CallEffect ops xid w.db (w.sessions xid) c s' g') :
    LocalWrite xid w.db s' ∧ (s'.tbl xid).xidWhenFree = (w.db.tbl xid).xidWhenFree ∧
      ZeroFirst xid g' s'.log := by
  cases effect with
  | update u s' run =>
    obtain ⟨_, _, pages, rfl⟩ := tupdate_eq_some run
    refine ⟨localWrite_logWrite w.db _ (by simp) pages, by simp [stasisLogWriteUpdate],
      zeroFirst_write zero (by simp) fun e he => ?_⟩
    simp only [Session.Mentions, mem_cons] at he ⊢
    tauto
  | begun op args =>
    refine ⟨⟨.inl rfl, fun _ _ => rfl, rfl⟩, rfl, ?_⟩
    rintro ⟨e, he, first⟩
    apply zero
    refine ⟨e, ?_, first⟩
    simp only [Session.Mentions, mem_cons, exists_eq_or_imp] at he ⊢
    tauto
  | ended handle before opened nested =>
    refine ⟨localWrite_logWrite w.db _ (by simp) w.db.pages, by simp [stasisLogEndNta],
      zeroFirst_write zero (by simp) fun e he => ?_⟩
    simp only [Session.Mentions, nested, mem_cons, exists_eq_or_imp] at he ⊢
    tauto
  | prepared =>
    refine ⟨localWrite_logWrite w.db _ (by simp) w.db.pages, by simp [stasisLogWritePrepare],
      zeroFirst_write zero (by simp) fun e he => ?_⟩
    simp only [Session.Mentions, mem_cons] at he ⊢
    tauto

theorem worldInv_start (t : LogType) (pages : Pages C) :
    WorldInv ops (World.start t pages) := by
  refine ⟨fun _ => rfl, fun x => show (-1 : Int) < 0 by decide, fun x range active _ => ?_,
    fun x set => absurd set (by simp [World.start]), fun a held => by simp [World.start] at held⟩
  have free : (-1 : Int) = x := active
  exact absurd range.1 (by omega)

theorem not_busy_of_inactive (inv : WorldInv ops w) (inactive : (w.db.tbl xid).xid < 0) :
    ¬ w.Busy xid := by
  rintro ⟨a, held, rfl, holds⟩
  obtain ⟨rank, rollback⟩ := (inv.pass a held).rollback
  obtain ⟨range, active⟩ := holds_active rollback holds
  have := range.1
  omega

variable {db : Database C}

section
variable (inv : WorldInv ops w)
include inv

theorem worldInv_begin (run : tbegin w.db xid = some db) :
    WorldInv ops { w with
      db := db
      sessions := update w.sessions xid Session.start
      aborted := update w.aborted xid false } := by
  unfold tbegin at run
  split at run
  next free =>
    cases run
    have inactive : (w.db.tbl xid).xid < 0 := by
      rcases free.2 with free | free <;> rw [free] <;> decide
    refine worldInv_local _ _ inv (not_busy_of_inactive inv inactive)
      ⟨.inl rfl, fun y ne => by simp [ne], rfl⟩ ?_ (fun range _ => ⟨?_, ?_⟩) (by simp)
    · simp [reservedXtableXid]
    · exact ⟨range, by simp, by simpa [Session.start] using Backed.nil,
        by simp [Session.start], by simp [Session.start]⟩
    · rintro ⟨e, he, _⟩
      simp [Session.Mentions, Session.start] at he
  next => exact absurd run (by simp)

section
variable (free : ¬ w.Busy xid) (live : w.aborted xid = false)
include free live

theorem worldInv_call (registered : c.Registered ops)
    (run : call ops xid w.db (w.sessions xid) c = some (db, g)) :
    WorldInv ops { w with db := db, sessions := update w.sessions xid g } := by
  obtain ⟨range, active, effect⟩ := call_eq_some run
  obtain ⟨session, zero⟩ := inv.session xid range active free
  obtain ⟨write, whenFree, zero'⟩ := localWrite_call zero effect
  have next := worldInv_local g (w.aborted xid) inv free write
    (whenFree ▸ inv.whenFree xid)
    (fun _ _ => ⟨sessionInv_call session registered effect, zero'⟩) (by simp [live])
  simpa only [update_eq_self] using next

theorem worldInv_end (range : InRange xid)
    (write : LocalWrite xid w.db db) (slot : (db.tbl xid).xid = (w.db.tbl xid).xidWhenFree)
    (whenFree : (db.tbl xid).xidWhenFree = (w.db.tbl xid).xidWhenFree) :
    WorldInv ops { w with db := db } := by
  have negative := inv.whenFree xid
  have next := worldInv_local (w.sessions xid) (w.aborted xid) inv free write
    (whenFree ▸ negative) (fun _ active => absurd range.1 (by omega)) (by simp [live])
  simpa only [update_eq_self] using next

theorem worldInv_commit (run : tcommit w.db xid = some db) : WorldInv ops { w with db := db } := by
  simp only [tcommit, bind_eq_bind, bind_eq_some_iff] at run
  obtain ⟨l, slot, tbl, commit, result⟩ := run
  cases result
  obtain ⟨range, active, rfl⟩ := get_eq_some slot
  simp only [TransactionTable.commit, range, if_true, some.injEq] at commit
  subst commit
  split
  · refine worldInv_end inv free live range ⟨.inr ⟨_, .xcommit, rfl, by simp⟩, ?_, rfl⟩ ?_ ?_
    · intro y ne
      simp [stasisLogWriteCommon, ne]
    · simp [stasisLogWriteCommon]
    · simp [stasisLogWriteCommon]
  · refine worldInv_end inv free live range ⟨.inl rfl, ?_, rfl⟩ ?_ ?_
    · intro y ne
      simp [ne]
    · simp
    · simp

theorem worldInv_forget {tbl : TransactionTable} (slot : w.db.tbl.get xid = some l)
    (run : w.db.tbl.forget xid = some tbl) :
    WorldInv ops { w with db := { w.db with tbl := tbl } } := by
  obtain ⟨range, active, rfl⟩ := get_eq_some slot
  simp only [TransactionTable.forget, range, active, if_true, some.injEq] at run
  subst run
  refine worldInv_end inv free live range ⟨.inl rfl, ?_, rfl⟩ ?_ ?_
  · intro y ne
    simp [ne]
  · simp
  · simp

end

theorem worldInv_logAbort (free : ¬ w.Busy xid) (slot : w.db.tbl.get xid = some l)
    (logged : l.prevLSN ≠ invalidLsn) :
    WorldInv ops { w with
      db := w.db.stasisLogWriteCommon xid .xabort
      sessions := update w.sessions xid
        ⟨w.db.log.reserveEntry (w.db.tbl xid).prevLSN xid .xabort ::
          (w.sessions xid).outstanding, []⟩
      aborted := update w.aborted xid true } := by
  obtain ⟨range, active, rfl⟩ := get_eq_some slot
  obtain ⟨session, zero⟩ := inv.session xid range active free
  refine worldInv_local _ _ inv free (localWrite_logWrite w.db _ (by simp) w.db.pages) ?_
    (fun _ _ => ⟨?_, zeroFirst_write zero (by simp) fun e he => ?_⟩)
    fun _ => ⟨range, ?_, _, _, rfl, rfl, ?_⟩
  · simpa [stasisLogWriteCommon] using inv.whenFree xid
  · exact session.logWrite session.backed session.running ⟨rfl, trivial⟩ (by simp)
  · simp only [Session.Mentions, mem_cons, not_mem_nil, false_and, exists_false,
      or_false] at he ⊢
    tauto
  · simpa [stasisLogWriteCommon] using active
  · -- the transaction has logged an entry already, so this one is not the first
    have below := backed_lt_next session.backed
    have older : 0 ≤ (w.db.tbl xid).prevLSN := by
      by_contra neg
      have nothing := backed_eq_nil_of_neg session.backed (by omega)
      have backed := session.backed
      rw [nothing] at backed
      generalize (w.db.tbl xid).prevLSN = lsn at backed logged
      cases backed
      exact logged rfl
    exact lt_of_le_of_lt older below

end

section
variable (inv : WorldInv ops w) (mutex : w.pass = none) (logged : w.aborted xid = true)
  (run : undoTrans w.db (w.db.tbl xid) = some (db, pt))
include inv mutex logged run

theorem passInv_undoTrans :
    db.log = w.db.log ∧ db.tbl = w.db.tbl ∧ Holds db pt ∧
      PassInv ops db ⟨xid, (w.sessions xid).outstanding, pt⟩ := by
  obtain ⟨range, active, idle, a, rest, shape, abort, pos⟩ := inv.aborted xid logged
  obtain ⟨session, zero⟩ := inv.session xid range active idle
  obtain ⟨newest, rank, rollback⟩ := rollback_start session shape abort pos
  have first : (w.db.tbl xid).prevLSN > 0 := by omega
  simp only [undoTrans, inv.idle mutex, if_true, first, some.injEq,
    Prod.mk.injEq] at run
  obtain ⟨rfl, rfl⟩ := run
  refine ⟨rfl, rfl, by simp [Holds], ⟨rank, rollback⟩, fun e he => ?_, fun zero e he pos =>
    backed_prevLSN_nonneg session.backed zero he pos, ?_⟩
  · obtain ⟨mem, lower⟩ := backed_mem session.backed he
    exact ⟨(session.running e he).1, lower, w.db.log.LSN_nonneg mem⟩
  · rintro ⟨e, he, first⟩ c hc own clr
    exact absurd (zero ⟨e, .inl he, first⟩ c hc own) clr

theorem worldInv_undoTrans :
    WorldInv ops { w with
      db := db
      aborted := update w.aborted xid false
      pass := some ⟨xid, (w.sessions xid).outstanding, pt⟩ } := by
  obtain ⟨log, tbl, holds, pass⟩ := passInv_undoTrans inv mutex logged run
  have free : ∀ y, ¬ w.Busy y := by
    rintro y ⟨a, held, _⟩
    rw [mutex] at held
    cases held
  refine ⟨(by simp), fun y => by rw [tbl]; exact inv.whenFree y,
    fun y range active idle => ?_, fun y set => ?_, fun a held => ?_⟩
  · rw [tbl] at active
    obtain ⟨session, zero⟩ := inv.session y range active (free y)
    rw [log]
    exact ⟨session.frame (.inl log) (by rw [tbl]), zero⟩
  · by_cases same : y = xid
    · subst same
      simp at set
    · simp only [update_of_ne same] at set
      obtain ⟨range, active, _, shape⟩ := inv.aborted y set
      refine ⟨range, by rw [tbl]; exact active, ?_, shape⟩
      rintro ⟨a, held, own, _⟩
      cases held
      exact same own.symm
  · cases held
    exact pass

end

/-- A step of the pass is a step of its rollback; the other sessions see an entry
and a slot that are not theirs. -/
theorem worldInv_undo (closed : ops.Closed) (inv : WorldInv ops w) (held : w.pass = some a)
    (run : undoStep ops (w.db, a.point) = some (db, pt)) :
    WorldInv ops { w with db := db, pass := some { a with point := pt } } := by
  have pass := inv.pass a held
  by_cases past : a.point = .finished
  · simp only [past, undoStep, some.injEq, Prod.mk.injEq] at run
    obtain ⟨rfl, rfl⟩ := run
    have same : { a with point := UndoPoint.finished } = a := by rw [← past]
    rw [same, ← held]
    exact inv
  obtain ⟨rank, rollback⟩ := pass.rollback
  obtain ⟨rank', s', pt', step, rollback', _, wrote, released, stays⟩ :=
    rollback_advances closed rollback past
  rw [run] at step
  cases step
  have mem : ∀ c ∈ db.log.entries, c ∈ w.db.log.entries ∨ c.xid = a.xid ∧
      (c.getCLRCompensated ≠ none → ∃ e ∈ a.victims, 0 < e.LSN ∧ c.prevLSN = e.prevLSN) := by
    intro c hc
    rcases wrote.log with same | ⟨prevLSN, p, grown, clr⟩
    · rw [same] at hc
      exact .inl hc
    · rw [grown, Log.writeEntry_entries] at hc
      rcases mem_append.mp hc with hc | hc
      · exact .inl hc
      · obtain rfl := mem_singleton.mp hc
        refine .inr ⟨rfl, fun isClr => ?_⟩
        cases p with
        | clrlog ce =>
          obtain ⟨e, he, prev⟩ := clr ce rfl
          obtain ⟨victim, pos⟩ := mem_filter.mp he
          exact ⟨e, victim, by simpa using pos, prev⟩
        | _ => exact absurd rfl isClr
  have freed : Holds w.db a.point → ¬ Holds db pt → (db.tbl a.xid).xid < 0 := by
    intro before after
    rw [released before after]
    exact inv.whenFree a.xid
  refine ⟨(by simp), fun y => ?_, fun y range active idle => ?_, fun y set => ?_,
    fun b hb => ?_⟩
  · by_cases same : y = a.xid
    · subst same
      rw [wrote.whenFree]
      exact inv.whenFree a.xid
    · rw [wrote.others y same]
      exact inv.whenFree y
  · by_cases same : y = a.xid
    · subst same
      replace active : (db.tbl a.xid).xid = a.xid := active
      have after : ¬ Holds db pt := fun holds => idle ⟨_, rfl, rfl, holds⟩
      have before : ¬ Holds w.db a.point := fun holds => by
        have := freed holds after
        have := range.1
        omega
      obtain ⟨log, tbl, _⟩ := stays before
      rw [tbl] at active
      obtain ⟨session, zero⟩ := inv.session a.xid range active (by
        rintro ⟨b, hb, _, holds⟩
        cases held.symm.trans hb
        exact before holds)
      rw [log]
      exact ⟨session.frame (.inl log) (by rw [tbl]), zero⟩
    · rw [wrote.others y same] at active
      obtain ⟨session, zero⟩ := inv.session y range active (by
        rintro ⟨b, hb, own, _⟩
        cases held.symm.trans hb
        exact same own.symm)
      refine ⟨?_, fun mentions c hc own => ?_⟩
      · rcases wrote.log with log | ⟨prevLSN, p, log, _⟩
        · exact session.frame (.inl log) (wrote.others y same)
        · exact session.frame (.inr ⟨_, _, _, log⟩) (wrote.others y same)
      · rcases mem c hc with hc | ⟨own', _⟩
        · exact zero mentions c hc own
        · exact absurd (own.symm.trans own') same
  · obtain ⟨range, active, idle, shape⟩ := inv.aborted y set
    have apart : y ≠ a.xid ∨ ¬ Holds w.db a.point := by
      by_contra both
      rw [not_or, not_not, not_not] at both
      exact idle ⟨a, held, both.1.symm, both.2⟩
    rcases apart with apart | before
    · refine ⟨range, by rw [wrote.others y apart]; exact active, ?_, shape⟩
      rintro ⟨b, hb, own, _⟩
      cases hb
      exact apart own.symm
    · obtain ⟨_, tbl, after⟩ := stays before
      refine ⟨range, by rw [tbl]; exact active, ?_, shape⟩
      rintro ⟨b, hb, _, holds⟩
      cases hb
      exact after holds
  · cases hb
    refine ⟨⟨rank', rollback'⟩, pass.victims, pass.behind, fun zero c hc own clr => ?_⟩
    rcases mem c hc with hc | ⟨_, written⟩
    · exact pass.spared zero c hc own clr
    · obtain ⟨e, he, pos, prev⟩ := written clr
      rw [prev]
      exact pass.behind zero e he pos

theorem worldInv_release (inv : WorldInv ops w) (held : w.pass = some a)
    (done : a.point = .finished) : WorldInv ops { w with pass := none } := by
  obtain ⟨rank, rollback⟩ := (inv.pass a held).rollback
  rw [done] at rollback
  have free : ∀ y, ¬ w.Busy y := by
    rintro y ⟨b, hb, _, holds⟩
    cases held.symm.trans hb
    rw [done] at holds
    exact holds
  refine ⟨fun _ => rollback.2.1, inv.whenFree, fun y range active _ => ?_, fun y set => ?_,
    fun b hb => by cases hb⟩
  · exact inv.session y range active (free y)
  · obtain ⟨range, active, _, shape⟩ := inv.aborted y set
    exact ⟨range, active, (by rintro ⟨b, hb, _⟩; cases hb), shape⟩

theorem worldInv_reachable (closed : ops.Closed) {pages : Pages C}
    (run : World.Reachable ops t pages w) : WorldInv ops w := by
  induction run with
  | refl => exact worldInv_start t pages
  | tail _ step inv =>
    cases step with
    | begin xid db run => exact worldInv_begin inv run
    | call xid c db g free live registered run =>
      exact worldInv_call inv free live registered run
    | commit xid db free live run => exact worldInv_commit inv free live run
    | logAbort xid l free live slot logged => exact worldInv_logAbort inv free slot logged
    | forget xid l tbl free live slot empty run => exact worldInv_forget inv free live slot run
    | undoTrans xid db pt mutex logged run => exact worldInv_undoTrans inv mutex logged run
    | undo a db pt held run => exact worldInv_undo closed inv held run
    | release a held done => exact worldInv_release inv held done

/-- In every interleaving a rollback runs to its end, and at its end it has
compensated every outstanding update if and only if none of them has LSN zero. -/
theorem undoTrans_complete_iff (ops : OperationTable C) (closed : ops.Closed) (t : LogType)
    (pages : Pages C) (w : World C) (run : World.Reachable ops t pages w) (a : UndoPass)
    (held : w.pass = some a) :
    (∃ s, Reaches (undoStep ops) (w.db, a.point) (s, .finished)) ∧
    (a.point = .finished →
      ((∀ e ∈ a.victims, Compensated w.db.log e) ↔
        ∀ e ∈ a.victims, e.toUpdate ≠ none → e.LSN ≠ 0)) := by
  have inv := (worldInv_reachable closed run).pass a held
  obtain ⟨rank, rollback⟩ := inv.rollback
  obtain ⟨s, finishes, _⟩ := rollback_finishes closed rollback
  refine ⟨⟨s, finishes⟩, fun done => ⟨fun all e he update zero => ?_,
    fun positive e he => ?_⟩⟩
  · obtain ⟨own, down, _⟩ := inv.victims e he
    cases payload : e.payload with
    | updatelog u =>
      have comp := all e he
      simp only [Compensated, payload] at comp
      obtain ⟨c, hc, cxid, cprev, clr⟩ := comp
      have spared := inv.spared ⟨e, he, zero⟩ c hc (cxid.trans own)
        (by simp [LogEntry.getCLRCompensated, clr])
      omega
    | _ => simp [LogEntry.toUpdate, payload] at update
  · rw [done] at rollback
    by_cases pos : 0 < e.LSN
    · exact rollback.2.2 e (mem_filter.mpr ⟨he, by simpa using pos⟩)
    · have zero : e.LSN = 0 := by
        have := (inv.victims e he).2.2
        omega
      cases payload : e.payload with
      | updatelog u =>
        exact absurd zero (positive e he (by simp [LogEntry.toUpdate, payload]))
      | _ => simp [Compensated, payload]

/-- With the safe-writes log an increment that is the first entry of the log is
compensated by the abort of its transaction. -/
theorem undoTrans_complete_logToFile :
    ∃ w a, World.Reachable counterOps .logToFile (fun _ => ⟨0, 0⟩) w ∧ w.pass = some a ∧
      a.point = .finished ∧ a.victims.map LogEntry.LSN = [64, 8] ∧
      ∀ e ∈ a.victims, Compensated w.db.log e := by
  have h0 : World.Reachable counterOps .logToFile (fun _ => ⟨0, 0⟩) _ := .refl
  have h1 := h0.tail (.begin _ 0 _ rfl)
  have h2 := h1.tail (.call _ 0 (.update ⟨operationIncrement, 7, []⟩) _ _
    (by rintro ⟨a, h, _⟩; cases h) rfl ⟨_, _, rfl, rfl⟩ rfl)
  have h3 := h2.tail (.logAbort _ 0 _ (by rintro ⟨a, h, _⟩; cases h) rfl rfl (by decide))
  have h4 := h3.tail (.undoTrans _ 0 _ _ rfl rfl rfl)
  have h5 := h4.tail (.undo _ _ _ _ rfl rfl)
  have h6 := h5.tail (.undo _ _ _ _ rfl rfl)
  have h7 := h6.tail (.undo _ _ _ _ rfl rfl)
  have h8 := h7.tail (.undo _ _ _ _ rfl rfl)
  have h9 := h8.tail (.undo _ _ _ _ rfl rfl)
  have complete := (undoTrans_complete_iff counterOps counterOps_closed .logToFile _ _ h9 _ rfl).2
    rfl
  refine ⟨_, _, h9, rfl, rfl, rfl, complete.mpr fun e he _ zero => ?_⟩
  have lsns : e.LSN ∈ ([64, 8] : List Int) := mem_map_of_mem he
  rw [zero] at lsns
  exact absurd lsns (by decide)

/-- The in-memory log gives the same increment LSN zero. The abort ends without
having compensated it. -/
theorem undoTrans_skips_zero :
    ∃ w a e, World.Reachable counterOps .logToMemory (fun _ => ⟨-1, 0⟩) w ∧ w.pass = some a ∧
      a.point = .finished ∧ e ∈ a.victims ∧
      e.toUpdate = some ⟨0, -1, 0, ⟨operationIncrement, 7, []⟩⟩ ∧
      ¬ Compensated w.db.log e := by
  have h0 : World.Reachable counterOps .logToMemory (fun _ => ⟨-1, 0⟩) _ := .refl
  have h1 := h0.tail (.begin _ 0 _ rfl)
  have h2 := h1.tail (.call _ 0 (.update ⟨operationIncrement, 7, []⟩) _ _
    (by rintro ⟨a, h, _⟩; cases h) rfl ⟨_, _, rfl, rfl⟩ rfl)
  have h3 := h2.tail (.logAbort _ 0 _ (by rintro ⟨a, h, _⟩; cases h) rfl rfl (by decide))
  have h4 := h3.tail (.undoTrans _ 0 _ _ rfl rfl rfl)
  have h5 := h4.tail (.undo _ _ _ _ rfl rfl)
  have h6 := h5.tail (.undo _ _ _ _ rfl rfl)
  have h7 := h6.tail (.undo _ _ _ _ rfl rfl)
  have h8 := h7.tail (.undo _ _ _ _ rfl rfl)
  refine ⟨_, _, ⟨0, -1, 0, .updatelog ⟨operationIncrement, 7, []⟩⟩, h8, rfl, rfl,
    .tail _ (.head _), rfl, ?_⟩
  rintro ⟨c, hc, _, _, clr⟩
  have entries : c ∈ ([⟨0, -1, 0, .updatelog ⟨operationIncrement, 7, []⟩⟩, ⟨1, 0, 0, .xabort⟩,
    ⟨2, 1, 0, .xend⟩] : List LogEntry) := hc
  simp only [mem_cons, not_mem_nil, or_false] at entries
  rcases entries with rfl | rfl | rfl
  all_goals simp at clr

end Stasis
