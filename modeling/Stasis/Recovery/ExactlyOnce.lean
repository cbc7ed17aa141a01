import Stasis.Recovery.Crash

/-!
Exactly-once rollback across crashes.

A logical undo chains its updates to what the transaction's slot points at. In a
pass that has compensated an update of a page the slot points at that update,
so a crash behind the first update of a later logical undo makes recovery
compensate it once more. The invariant follows both ways on which a pass can
continue after a crash: from the newest record, and from the slot.
-/
namespace Stasis
open TransactionTable Database Machine List OperationTable
variable {C : Type} {ops : OperationTable C} {xid : Int} {s s' : Database C} {hist : List LogEntry}
  {base fin : Int → C} {mark : Nat} {pt : UndoPoint}

/-- The table is closed, and every logical undo issues updates that can be repeated
and taken back. -/
structure Rollbackable (ops : OperationTable C) : Prop where
  closed : ops.Closed
  reversible : ∀ e c, Reversible ops e.xid (ops.issues e c) c

/-- The rollback has reached the wanted contents. -/
def RolledBack (hist : List LogEntry) (fin : Int → C) (s : Database C) : Prop :=
  s.contents = fin ∧ ∀ e ∈ hist, e.UpdatesPage → clrCount s.log e.LSN = 1

/-- The pass continues correctly from where it stands. -/
def Placed (ops : OperationTable C) (xid : Int) (hist : List LogEntry) (fin : Int → C)
    (s : Database C) : UndoPoint → Prop
  | .outer => (s.rollbackLSNs = [] ∧ RolledBack hist fin s) ∨
      ∃ first es, s.rollbackLSNs = [first] ∧
        Ready ops xid hist fin s.log s.contents first es
  | .inner off _ _ _ => ∃ es, Ready ops xid hist fin s.log s.contents off es
  | .logical e pending _ => Reversible ops e.xid pending s.contents ∧
      ∃ es, Ready ops xid hist fin s.log (ops.doAll e.xid pending s.contents) e.prevLSN es
  | .finished => RolledBack hist fin s

/-- No update of a page has been compensated since the pass began. -/
def Untouched (mark : Nat) (log : Log) : Prop :=
  ∀ c ∈ log.entries.drop mark, ∀ lsn, c.compensates lsn = false

/-- What every state of a rollback with safe crashes satisfies. -/
structure CrashInv (ops : OperationTable C) (xid : Int) (hist : List LogEntry)
    (base fin : Int → C) (mark : Nat) (s : Database C) (pt : UndoPoint) : Prop where
  rollback : ∃ full rank, Rollback ops xid full rank s pt
  facts : LogFacts ops xid base s
  mark_le : mark ≤ s.log.entries.length
  placed : Placed ops xid hist fin s pt
  slot : Holds s pt → Untouched mark s.log →
    ∃ es, Ready ops xid hist fin s.log s.contents (s.tbl xid).prevLSN es
  resume : Holds s pt → CrashSafe mark s pt →
    ∃ last es, lastOf s.log.entries xid = some last ∧ last.payload.Unfinished ∧
      Ready ops xid hist fin s.log s.contents last.LSN es
  ended : ¬ Holds s pt → ∃ last, lastOf s.log.entries xid = some last ∧ last.payload.Ends

namespace CrashInv

theorem same (inv : CrashInv ops xid hist base fin mark s pt) (log : s'.log = s.log)
    (tbl : s'.tbl = s.tbl) (pages : s'.pages = s.pages) (holds : Holds s' pt' ↔ Holds s pt)
    (safe : CrashSafe mark s pt)
    (rollback : ∃ full rank, Rollback ops xid full rank s' pt')
    (placed : Placed ops xid hist fin s' pt') :
    CrashInv ops xid hist base fin mark s' pt' := by
  obtain ⟨_, tbl', _, list⟩ := s'
  subst log tbl pages
  have facts := inv.facts
  exact ⟨rollback, ⟨facts.solo, facts.durable, ⟨facts.replayed.contents, facts.replayed.below⟩,
    facts.repeatable, facts.once, facts.fresh⟩, inv.mark_le, placed,
    fun held untouched => inv.slot (holds.mp held) untouched,
    fun held _ => inv.resume (holds.mp held) safe, fun gone => inv.ended fun held =>
      gone (holds.mpr held)⟩

section
variable (le : mark ≤ s.log.entries.length)
include le

theorem drop_write (prevLSN x : Int) (p : Payload) :
    (s.log.writeEntry prevLSN x p).entries.drop mark =
      s.log.entries.drop mark ++ [s.log.reserveEntry prevLSN x p] := by
  simp [drop_append_of_le_length le]

theorem mark_write (prevLSN x : Int) (p : Payload) :
    mark ≤ (s.log.writeEntry prevLSN x p).entries.length := by
  simp
  omega

theorem untouched_write (untouched : Untouched mark (s.log.writeEntry prevLSN x p)) :
    Untouched mark s.log ∧ ∀ lsn, (s.log.reserveEntry prevLSN x p).compensates lsn = false := by
  unfold Untouched at untouched ⊢
  rw [drop_write le] at untouched
  refine ⟨fun c hc => untouched c (mem_append_left _ hc), ?_⟩
  exact untouched _ (mem_append_right _ (mem_singleton_self _))

end

section
variable (inv : CrashInv ops xid hist base fin mark s (.inner off thisXid ra false))
include inv

theorem stop (stop : ¬ 0 < off) (forget : tforget s thisXid = some s')
    (rollback : ∃ full rank, Rollback ops xid full rank s' .outer) :
    CrashInv ops xid hist base fin mark s' .outer := by
  obtain ⟨full, rank, before⟩ := inv.rollback
  obtain ⟨rolling, own⟩ := rollback_stopped before stop
  subst own
  obtain ⟨tbl, run, _⟩ := tforget_of_active s rolling.range rolling.active
  rw [forget] at run
  cases run
  have idle : s.rollbackLSNs = [] := before.1
  obtain ⟨es, ready⟩ := inv.placed
  obtain ⟨contents, done⟩ := ready.stop stop
  obtain ⟨replayed, same⟩ := inv.facts.replayed.inert
    { s.stasisLogWriteCommon thisXid .xend with tbl := tbl } (p := .xend) trivial rfl rfl
  refine ⟨rollback, inv.facts.write rfl replayed (.inr rolling.slot) (by simp) trivial
    (fun u h => by cases h) (fun lsn h => by cases h), mark_write inv.mark_le _ _ _,
    .inl ⟨idle, same.trans contents, fun e he update => ?_⟩, fun held => absurd idle held,
    fun held => absurd idle held, fun _ => ⟨_, SoloLog.newest_write _ _ _, trivial⟩⟩
  have count := done e he update
  simpa [stasisLogWriteCommon, clrCount_writeEntry, LogEntry.compensates] using count

theorem undo {e : LogEntry} (pos : 0 < off) (read : s.log.readEntry off = some e)
    (payload : e.payload = .updatelog u) (physical : u.page ≠ invalidPage)
    (run : undoPhysical ops s ⟨e.LSN, e.prevLSN, e.xid, u⟩ = some s')
    (rollback : ∃ full rank, Rollback ops xid full rank s' (.inner e.prevLSN e.xid ra false)) :
    CrashInv ops xid hist base fin mark s' (.inner e.prevLSN e.xid ra false) := by
  obtain ⟨es, ready⟩ := inv.placed
  obtain ⟨rest, rfl, chain⟩ := ready.visit pos read
  obtain ⟨mem, _⟩ := s.log.readEntry_eq_some_iff.mp read
  have nonneg := s.log.LSN_nonneg mem
  have below := s.log.below e mem
  obtain ⟨own, down, _⟩ := (ready.doomed e mem_cons_self).1
  subst own
  have repeatable := inv.facts.repeatable e mem u payload physical
  have valid : e.LSN ≠ invalidLsn := by
    simp only [invalidLsn]
    omega
  obtain ⟨replayed, contents⟩ := inv.facts.replayed.undo repeatable.1 valid run
  obtain ⟨tbl, pages, rfl, _⟩ := undoPhysical_eq_some run
  have next := ready.undo chain payload physical mem
  rw [show ops.undoOn e.xid u s.contents = _ from contents.symm] at next
  have none := ready.pending e mem_cons_self ⟨u, payload, physical⟩
  refine ⟨rollback, inv.facts.write rfl replayed (chain_link chain) (by simp)
    (Physical.redoable_clr repeatable.1 _ _ _) (fun v h => by cases h) ?_,
    mark_write inv.mark_le _ _ _, ⟨rest, next⟩, fun _ untouched => ?_, fun _ _ => ?_,
    fun gone => absurd trivial gone⟩
  · intro lsn hit
    simp only [LogEntry.compensates, Log.reserveEntry_payload, decide_eq_true_eq] at hit
    rw [← hit.2]
    exact ⟨below, none⟩
  · have touched := (untouched_write inv.mark_le untouched).2 e.LSN
    simp [LogEntry.compensates, valid] at touched
  · exact ⟨_, _, SoloLog.newest_write _ _ _, trivial,
      next.clr inv.facts.next_pos (down.trans below)⟩

end

theorem close (inv : CrashInv ops xid hist base fin mark s (.logical e [] ra))
    (rollback : ∃ full rank, Rollback ops xid full rank (s.stasisLogWriteDummyClr e.xid e.prevLSN)
      (.inner e.prevLSN e.xid ra false)) :
    CrashInv ops xid hist base fin mark (s.stasisLogWriteDummyClr e.xid e.prevLSN)
      (.inner e.prevLSN e.xid ra false) := by
  obtain ⟨full, rank, before⟩ := inv.rollback
  obtain ⟨_, _, d, todo, _, _, _, entry, chain, _, rolling, _⟩ := before
  obtain ⟨⟨own, down, _⟩, reach⟩ := rolling.ahead d mem_cons_self
  have below : d.prevLSN < s.log.nextAvailableLSN := by
    obtain ⟨b, hb, named⟩ := rolling.slot
    have low := s.log.below b hb
    omega
  rw [entry] at rollback ⊢
  obtain ⟨_, es, ready⟩ := inv.placed
  rw [entry] at ready
  subst own
  have silent : ∀ lsn, (s.log.reserveEntry d.prevLSN d.xid (.clrlog ⟨invalidLsn, d.prevLSN,
      d.xid, ⟨operationNoop, invalidPage, []⟩⟩)).compensates lsn = false := by
    intro lsn
    simp [LogEntry.compensates]
  have next := ready.write d.prevLSN d.xid silent
  have inert : (Payload.clrlog ⟨invalidLsn, d.prevLSN, d.xid,
      ⟨operationNoop, invalidPage, []⟩⟩).Inert := rfl
  obtain ⟨replayed, same⟩ := inv.facts.replayed.inert
    (s.stasisLogWriteDummyClr d.xid d.prevLSN) inert rfl rfl
  refine ⟨rollback, inv.facts.write rfl replayed (chain_link ready.chain) (by simp) (.inl rfl)
    (fun v h => by cases h) (fun lsn hit => ?_), mark_write inv.mark_le _ _ _, ⟨es, next⟩,
    fun _ untouched => ?_, fun _ _ => ?_, fun gone => absurd trivial gone⟩
  · rw [silent lsn] at hit
    cases hit
  · obtain ⟨ss, slot⟩ := inv.slot trivial (untouched_write inv.mark_le untouched).1
    exact ⟨ss, slot.write _ _ silent⟩
  · exact ⟨_, _, SoloLog.newest_write _ _ _, trivial, next.clr inv.facts.next_pos below⟩

/-- A logical undo logs an update. Without an earlier CLR in the pass the slot leads
back to the start of the pass; otherwise the point is not a safe one. -/
theorem issue {v : UpdateLogEntry}
    (inv : CrashInv ops xid hist base fin mark s (.logical e (v :: pending) ra))
    (run : tupdate ops s e.xid v = some s')
    (rollback : ∃ full rank, Rollback ops xid full rank s' (.logical e pending ra)) :
    CrashInv ops xid hist base fin mark s' (.logical e pending ra) := by
  obtain ⟨full, rank, before⟩ := inv.rollback
  obtain ⟨_, _, d, todo, _, _, _, entry, _, _, rolling, _⟩ := before
  obtain ⟨⟨own, _, _⟩, _⟩ := rolling.ahead d mem_cons_self
  have mine : e.xid = xid := by
    rw [entry]
    exact own
  rw [mine] at run
  obtain ⟨⟨repeatable, back, reversible⟩, es, ready⟩ := inv.placed
  rw [mine] at back reversible ready
  obtain ⟨replayed, contents⟩ := inv.facts.replayed.update repeatable run
  obtain ⟨physical, _, pages, rfl⟩ := tupdate_eq_some run
  obtain ⟨b, hb, named⟩ := rolling.slot
  have below := s.log.below b hb
  have silent : ∀ lsn, (s.log.reserveEntry (s.tbl xid).prevLSN xid
      (.updatelog v)).compensates lsn = false := fun lsn => rfl
  have slotReady : Untouched mark s.log → ∃ es, Ready ops xid hist fin
      (s.log.writeEntry (s.tbl xid).prevLSN xid (.updatelog v)) (ops.doOn xid v s.contents)
      s.log.nextAvailableLSN es := by
    intro untouched
    obtain ⟨ss, slot⟩ := inv.slot trivial untouched
    exact ⟨_, slot.issue physical repeatable.1.undoable back inv.facts.next_pos (named ▸ below)
      (inv.facts.fresh _ le_rfl)⟩
  rw [← contents] at slotReady reversible
  refine ⟨rollback, inv.facts.write rfl replayed (.inr ⟨b, hb, named⟩) (by simp)
    (repeatable.1.redoable_update _ _ _) (fun u same _ => ?_) (fun lsn hit => ?_),
    mark_write inv.mark_le _ _ _, ⟨?_, es, ?_⟩, fun _ untouched => ?_, fun _ safe => ?_,
    fun gone => absurd trivial gone⟩
  · obtain rfl := Payload.updatelog.inj same
    exact repeatable
  · rw [silent lsn] at hit
    cases hit
  · rw [mine]
    exact reversible
  · rw [mine, contents]
    exact ready.write _ _ silent
  · simp only [stasisLogWriteUpdate, logWrite_tbl_prevLSN]
    exact slotReady (untouched_write inv.mark_le untouched).1
  · have last : (s.log.writeEntry (s.tbl xid).prevLSN xid (.updatelog v)).entries.drop mark =
        s.log.entries.drop mark ++ [_] := drop_write inv.mark_le _ _ _
    have untouched : Untouched mark
        (s.log.writeEntry (s.tbl xid).prevLSN xid (.updatelog v)) := by
      refine safe ⟨s.log.reserveEntry (s.tbl xid).prevLSN xid (.updatelog v), v, ?_, rfl⟩
      simp only [stasisLogWriteUpdate, logWrite_log, last]
      exact getLast?_concat
    obtain ⟨ss, slot⟩ := slotReady (untouched_write inv.mark_le untouched).1
    exact ⟨_, ss, SoloLog.newest_write _ _ _, trivial, slot⟩

theorem step (table : Rollbackable ops) (inv : CrashInv ops xid hist base fin mark s pt)
    (step : undoStep ops (s, pt) = some (s', pt')) :
    CrashInv ops xid hist base fin mark s' pt' := by
  have rollback : ∃ full rank, Rollback ops xid full rank s' pt' := by
    obtain ⟨full, rank, before⟩ := inv.rollback
    exact ⟨full, rollback_step table.closed before step⟩
  cases undoStep_eq_some step with
  | idle none =>
    refine inv.same rfl rfl rfl (by simp [Holds, none]) trivial rollback ?_
    cases inv.placed with
    | inl past => exact past.2
    | inr more =>
      obtain ⟨first, es, list, _⟩ := more
      simp [none] at list
  | take first rest list =>
    refine inv.same rfl rfl rfl (by simp [Holds, list]) trivial rollback ?_
    cases inv.placed with
    | inl past => simp [list] at past
    | inr more =>
      obtain ⟨first', es, list', ready⟩ := more
      rw [list] at list'
      obtain ⟨rfl, _⟩ := List.cons.inj list'
      exact ⟨es, ready⟩
  | leave off thisXid ra =>
    obtain ⟨full, rank, before⟩ := inv.rollback
    exact absurd before.2.1 (by simp)
  | stop off thisXid ra s' stop forget => exact inv.stop stop forget rollback
  | skip off thisXid ra ra' e pos read skipped =>
    refine inv.same rfl rfl rfl Iff.rfl trivial rollback ?_
    obtain ⟨es, ready⟩ := inv.placed
    obtain ⟨rest, rfl, chain⟩ := ready.visit pos read
    generalize payload : e.payload = p at skipped
    refine ⟨rest, ready.pass chain ?_ ?_⟩
    · rintro ⟨u, update, _⟩
      rw [payload] at update
      subst update
      cases skipped
    · cases skipped with
      | clr | abort | prepare =>
        exact (rollback_cons_other (by simp only [LogEntry.toUpdate, payload]) _ _).symm
  | prepared off thisXid recLSN e tbl pos read payload roll =>
    obtain ⟨es, ready⟩ := inv.placed
    obtain ⟨rest, rfl, _⟩ := ready.visit pos read
    exact absurd payload ((ready.doomed e mem_cons_self).2 recLSN)
  | undo off thisXid ra e u s' pos read payload physical undo =>
    exact inv.undo pos read payload physical undo rollback
  | enter off thisXid ra e u op undo pos read payload logical hop hundo =>
    refine inv.same rfl rfl rfl Iff.rfl trivial rollback ?_
    obtain ⟨es, ready⟩ := inv.placed
    obtain ⟨rest, rfl, chain⟩ := ready.visit pos read
    have issues : ops.issues ⟨e.LSN, e.prevLSN, e.xid, u⟩ s.contents =
        undo.runLogical e.xid u s.contents := by
      simp only [issues, hop, hundo, Option.bind_some]
    have reversible := table.reversible ⟨e.LSN, e.prevLSN, e.xid, u⟩ s.contents
    rw [issues] at reversible
    refine ⟨reversible, rest, ready.pass chain ?_ ?_⟩
    · rintro ⟨v, update, physical⟩
      rw [payload] at update
      obtain rfl := Payload.updatelog.inj update
      exact physical logical
    · rw [rollback_cons_update payload, compensate, if_pos logical, issues]
  | issue e v pending ra s' issue => exact inv.issue issue rollback
  | close e ra => exact inv.close rollback
  | finished => exact inv

theorem recovered (facts : LogFacts ops xid base s) (image : CrashImage ops base s.log disk)
    {tbl : TransactionTable} {pages : Pages C} (list : List Int)
    (cells : ∀ p, (pages p).cell =
      StampedReplay.redo (s.log.entries.map (LogEntry.action ops p)) (disk p).cell) :
    LogFacts ops xid base ⟨s.log, tbl, pages, list⟩ ∧
      Database.contents ⟨s.log, tbl, pages, list⟩ = s.contents := by
  have contents : Database.contents ⟨s.log, tbl, pages, list⟩ =
      replayAll ops base s.log.entries := by
    funext p
    have reflects := (consistent_iff_reflects ops base _ p _).mp (image.consistent p)
    have value := StampedReplay.redo_value (action_ordered ops p s.log.ordered) reflects
    rw [← cells p] at value
    simp only [replayAll, replayPage_eq_replay]
    exact value
  have below : ∀ p, (pages p).LSN < s.log.nextAvailableLSN := by
    intro p
    have stamp : (pages p).LSN = (pages p).cell.stamp := rfl
    rw [stamp, cells p]
    refine StampedReplay.redo_stamp_lt (fun a ha => ?_) (image.below p)
    obtain ⟨e, he, rfl⟩ := mem_map.mp ha
    exact s.log.below e he
  exact ⟨⟨facts.solo, facts.durable, ⟨contents, below⟩, facts.repeatable, facts.once,
    facts.fresh⟩, contents.trans facts.replayed.contents.symm⟩

theorem crash (inv : CrashInv ops xid hist base fin mark s pt) (safe : CrashSafe mark s pt)
    (image : CrashImage ops base s.log disk)
    (recover : stasisRecoveryInitiate ops s.log disk = some (s', pt')) :
    CrashInv ops xid hist base fin s'.log.entries.length s' pt' := by
  obtain ⟨tbl, pages, list, run, resumes, ends, _, cells⟩ := inv.facts.solo.recover disk
  rw [recover] at run
  cases run
  obtain ⟨facts, contents⟩ := recovered inv.facts image list cells
  by_cases holds : Holds s pt
  · obtain ⟨last, es, newest, unfinished, ready⟩ := inv.resume holds safe
    obtain ⟨rfl, active, slot⟩ := resumes last newest unfinished
    obtain ⟨mem, _⟩ := mem_of_lastOf newest
    have sorted := (chain_sorted ready.chain fun d hd => (ready.doomed d hd).1.2.1).1
    have nonempty : es ≠ [] := by
      rintro rfl
      have chain := ready.chain
      cases chain with
      | stop _ h => exact h (durable_pos inv.facts.durable mem)
    have rolling : Rolling ops xid es ⟨s.log, tbl, pages, [last.LSN]⟩ es := by
      refine ⟨inv.facts.solo.range, active, ⟨[], rfl, by simp⟩, fun e he => ?_,
        last, mem, slot.symm⟩
      rw [slot]
      exact ⟨(ready.doomed e he).1, sorted e he⟩
    rw [← contents] at ready
    refine ⟨⟨es, _, .inl ⟨rfl, _, rfl, ready.chain, rolling, nonempty, ?_⟩⟩, facts, Nat.le_refl _,
      .inr ⟨_, es, rfl, ready⟩, fun _ _ => ⟨es, ?_⟩, fun _ _ => ⟨last, es, newest, unfinished,
      ready⟩, fun gone => absurd (by simp [Holds]) gone⟩
    · exact passable_of_live fun e he => (ready.doomed e he).2
    · simp only [slot]
      exact ready
  · obtain ⟨last, newest, past⟩ := inv.ended holds
    obtain ⟨rfl, _⟩ := ends last newest past
    have done : RolledBack hist fin s := by
      have placed := inv.placed
      cases pt with
      | outer =>
        cases placed with
        | inl past => exact past.2
        | inr more =>
          obtain ⟨first, es, list, _⟩ := more
          exact absurd (by simp [Holds, list]) holds
      | inner _ _ _ _ | logical _ _ _ => exact absurd trivial holds
      | finished => exact placed
    exact ⟨⟨[], _, .inr ⟨rfl, rfl, by simp⟩⟩, facts, Nat.le_refl _,
      .inl ⟨rfl, contents.trans done.1, done.2⟩, fun held => absurd rfl held,
      fun held => absurd rfl held, fun _ => ⟨last, newest, past⟩⟩

end CrashInv
/-- A transaction that updates pages, also inside nested top actions. -/
def Call.Undoable (ops : OperationTable C) : Call → Prop
  | .update u => Repeatable ops u
  | .beginNta op _ => ops.Undoable op
  | .endNta => True
  | .prepare => False

theorem Call.Undoable.sound {c : Call} (h : c.Undoable ops) : c.Sound ops := by
  cases c with
  | update u => exact h.1
  | beginNta op args => exact h
  | endNta => trivial
  | prepare => exact absurd h id

/-- The log of such a transaction before its abort. -/
structure Loaded (ops : OperationTable C) (base : Int → C) (s : Database C) : Prop where
  replayed : Replayed ops base s
  entries : ∀ e ∈ s.log.entries, ∃ u, e.payload = .updatelog u ∧
    (u.page ≠ invalidPage → Repeatable ops u)

section
variable (loaded : Loaded ops base s)
include loaded

theorem Loaded.call (session : SessionInv ops xid s g) (kind : c.Undoable ops)
    (run : call ops xid s g c = some (s', g')) : Loaded ops base s' := by
  obtain ⟨_, _, effect⟩ := call_eq_some run
  cases effect with
  | update u s' accepted =>
    obtain ⟨replayed, _⟩ := loaded.replayed.update kind accepted
    obtain ⟨_, _, pages, rfl⟩ := tupdate_eq_some accepted
    refine ⟨replayed, fun e he => ?_⟩
    cases mem_append.mp he with
    | inl he => exact loaded.entries e he
    | inr he =>
      rw [mem_singleton.mp he]
      exact ⟨u, rfl, fun _ => kind⟩
  | begun op args => exact loaded
  | ended handle before opened nested =>
    obtain ⟨_, _, logical, _⟩ := session.opened (handle, before) (by simp [nested])
    have inert : (Payload.updatelog handle.update).Inert := logical
    refine ⟨(loaded.replayed.inert (s.stasisLogEndNta xid handle) inert rfl rfl).1,
      fun e he => ?_⟩
    cases mem_append.mp he with
    | inl he => exact loaded.entries e he
    | inr he =>
      rw [mem_singleton.mp he]
      exact ⟨handle.update, rfl, fun physical => absurd logical physical⟩
  | prepared => exact absurd kind id

theorem Loaded.runCalls (inv : SoloSession ops xid s g) (kinds : ∀ c ∈ calls, c.Undoable ops)
    (run : runCalls ops xid calls (s, g) = some st) : Loaded ops base st.1 := by
  have both : Loaded ops base st.1 ∧ SoloSession ops xid st.1 st.2 := by
    refine Fallible.foldlM_some_invariant
      (P := fun st => Loaded ops base st.1 ∧ SoloSession ops xid st.1 st.2) ⟨loaded, inv⟩
      (fun _ c hc _ before first => ?_) run
    have kind := kinds c hc
    exact ⟨before.1.call before.2.session kind first, before.2.call kind.sound first⟩
  exact both.1

theorem Loaded.clrCount_eq_zero (lsn : Int) : clrCount s.log lsn = 0 := by
  apply countP_eq_zero.mpr
  intro e he
  obtain ⟨u, payload, _⟩ := loaded.entries e he
  simp [LogEntry.compensates, payload]

theorem Loaded.facts {g : Session} (inv : SoloSession ops xid s g) : LogFacts ops xid base s := by
  refine ⟨inv.solo, inv.durable, loaded.replayed, fun e he u payload => ?_, fun lsn => ?_,
    fun lsn _ => loaded.clrCount_eq_zero lsn⟩
  · obtain ⟨v, payload', repeatable⟩ := loaded.entries e he
    rw [payload] at payload'
    obtain rfl := Payload.updatelog.inj payload'
    exact repeatable
  · rw [loaded.clrCount_eq_zero lsn]
    omega

end

open SoloSession in
theorem crashInv_abort {g : Session} (inv : SoloSession ops xid s g)
    (loaded : Loaded ops base s) (logged : g.outstanding ≠ []) :
    CrashInv ops xid g.outstanding base (ops.rollback g.outstanding s.contents)
      (abortLogged s xid).log.entries.length (abortLogged s xid) .outer := by
  obtain ⟨_, next, rank, rollback⟩ := inv.abort logged
  have facts := loaded.facts inv
  have down : ∀ e ∈ g.outstanding, e.prevLSN < e.LSN :=
    fun e he => (backed_mem inv.session.backed he).2
  have chain := chain_of_backed next.session.backed
  rw [filter_eq_self.mpr fun e he => by
    simpa using durable_pos next.durable (backed_mem next.session.backed he).1] at chain
  have count : ∀ lsn, clrCount (abortLogged s xid).log lsn = 0 := by
    intro lsn
    have zero := loaded.clrCount_eq_zero lsn
    simpa [abortLogged, stasisLogWriteCommon, clrCount_writeEntry, LogEntry.compensates]
      using zero
  have slot : ((abortLogged s xid).tbl xid).prevLSN = s.log.nextAvailableLSN := by
    simp [abortLogged, stasisLogWriteCommon]
  obtain ⟨replayed, contents⟩ := facts.replayed.inert (abortLogged s xid) (p := .xabort)
    trivial rfl rfl
  have ready : Ready ops xid g.outstanding (ops.rollback g.outstanding s.contents)
      (abortLogged s xid).log (abortLogged s xid).contents s.log.nextAvailableLSN
      (abortEntry s xid :: g.outstanding) := by
    refine ⟨slot ▸ chain, fun e he => ?_, ?_, fun e _ _ => count e.LSN,
      fun e he _ => .inl (mem_cons_of_mem _ he)⟩
    · obtain ⟨own, kind⟩ := next.session.running e he
      cases he with
      | head =>
        exact ⟨⟨rfl, backed_lt_next inv.session.backed, trivial⟩, fun recLSN h => by cases h⟩
      | tail _ he =>
        obtain ⟨u, payload, _⟩ := loaded.entries e (backed_mem inv.session.backed he).1
        simp only [payload] at kind
        simp [Doomed, payload, own, down e he, kind]
    · rw [contents, rollback_cons_other rfl]
  exact ⟨⟨_, rank, rollback⟩,
    facts.write rfl replayed (backed_link inv.session.backed) (by simp) trivial
      (fun u h => by cases h) (fun lsn h => by cases h), Nat.le_refl _,
    .inr ⟨_, _, rfl, ready⟩, fun _ _ => ⟨_, slot ▸ ready⟩,
    fun _ _ => ⟨_, _, SoloLog.newest_write _ _ _, trivial, ready⟩,
    fun gone => absurd (by simp [Holds, abortLogged]) gone⟩

theorem crashInv_run (table : Rollbackable ops) {start : Database C × UndoPoint}
    (inv : CrashInv ops xid hist base fin start.1.log.entries.length start.1 start.2)
    (run : RollbackRun ops base CrashSafe start mark s pt) :
    CrashInv ops xid hist base fin mark s pt := by
  induction run with
  | start => exact inv
  | step mark s s' pt pt' _ step ih => exact ih.step table step
  | crash mark s s' pt pt' disk _ safe image recover ih => exact ih.crash safe image recover

theorem CrashInv.finishes (table : Rollbackable ops)
    (inv : CrashInv ops xid hist base fin mark s pt) :
    ∃ s', Reaches (undoStep ops) (s, pt) (s', .finished) ∧ RolledBack hist fin s' ∧
      ∀ lsn, clrCount s'.log lsn ≤ 1 := by
  obtain ⟨full, rank, rollback⟩ := inv.rollback
  obtain ⟨s', run, _⟩ := rollback_finishes table.closed rollback
  have last := run.invariant (P := fun st => CrashInv ops xid hist base fin mark st.1 st.2)
    (fun _ _ inv one => inv.step table one) inv
  exact ⟨s', run, last.placed, last.facts.once⟩

/-- In every run of a rollback whose crashes are safe, no update is undone twice, and
from every state of the run the rollback ends with the contents of a rollback
without crashes and one CLR for each update. -/
theorem rollback_exactly_once (ops : OperationTable C) (table : Rollbackable ops) (xid : Int)
    (s₀ : Database C) (begun : Begun xid s₀)
    (fresh : ∀ p, (s₀.pages p).LSN < s₀.log.nextAvailableLSN) (calls : List Call)
    (kinds : ∀ c ∈ calls, c.Undoable ops) (s : Database C) (g : Session)
    (called : runCalls ops xid calls (s₀, Session.start) = some (s, g))
    (logged : g.outstanding ≠ []) (start : Database C × UndoPoint)
    (abort : tabort s xid = some start) :
    ∃ final, Reaches (undoStep ops) start (final, .finished) ∧
      ∀ mark s' pt, RollbackRun ops s₀.contents CrashSafe start mark s' pt →
        (∀ lsn, clrCount s'.log lsn ≤ 1) ∧
        ∃ s'', Reaches (undoStep ops) (s', pt) (s'', .finished) ∧
          s''.contents = final.contents ∧ (∀ lsn, clrCount s''.log lsn ≤ 1) ∧
          ∀ e ∈ g.outstanding, e.UpdatesPage → clrCount s''.log e.LSN = 1 := by
  have empty : Loaded ops s₀.contents s₀ := by
    refine ⟨⟨?_, fresh⟩, by simp [begun.empty]⟩
    rw [begun.empty]
    rfl
  have session₀ : SoloSession ops xid s₀ Session.start := .start begun
  have session := session₀.runCalls (fun c hc => (kinds c hc).sound) called
  have loaded := empty.runCalls session₀ kinds called
  obtain ⟨run, _⟩ := session.abort logged
  rw [abort] at run
  cases run
  have inv := crashInv_abort session loaded logged
  obtain ⟨final, finishes, done, _⟩ := inv.finishes table
  refine ⟨final, finishes, fun mark s' pt run => ?_⟩
  have here := crashInv_run table inv run
  obtain ⟨s'', finishes', done', once⟩ := here.finishes table
  exact ⟨here.facts.once, s'', finishes', done'.1.trans done.1.symm, once, done'.2⟩

/-- A nested top action that increments counter 1, and an increment of counter 2. -/
def nestedThenIncrement : List Call :=
  [.beginNta (operationUserDefined 0) [], .update ⟨operationIncrement, 1, []⟩, .endNta,
    .update ⟨operationIncrement, 2, []⟩]

theorem counterOps_rollbackable : Rollbackable counterOps := by
  refine ⟨counterOps_closed, fun e c => ?_⟩
  cases hop : counterOps e.update.funcID with
  | none => simp only [issues, hop, Option.bind_none, Reversible]
  | some op =>
    rcases counterOps_cases hop with rfl | rfl | rfl | rfl | rfl
    all_goals simp only [issues, hop, Option.bind_some]
    case inr.inr.inr.inl =>
      refine ⟨⟨⟨by decide, by decide, by decide, by decide, by decide, _, _, _, rfl, rfl, rfl⟩,
        fun op h => ?_⟩, ?_, trivial⟩
      · cases h
        exact ⟨rfl, fun idle => absurd idle (by decide)⟩
      · funext p
        by_cases same : p = 1
        · subst same
          simp [doOn, undoOn, counterOps, opIncrement,
            opDecrement, operationIncrement, operationDecrement]
        · simp [doOn, undoOn, counterOps, opIncrement,
            opDecrement, operationIncrement, operationDecrement, same]
    all_goals trivial

theorem nestedThenIncrement_undoable :
    ∀ c ∈ nestedThenIncrement, c.Undoable counterOps := by
  have increment : ∀ p, p ≠ invalidPage → p ≠ segmentPageid → p ≠ multiPageid →
      Repeatable counterOps ⟨operationIncrement, p, []⟩ := by
    intro p page segment multi
    refine ⟨⟨page, segment, multi, by simp only; decide, by simp only; decide, _, _, _, rfl, rfl,
      rfl⟩, fun op h => ?_⟩
    cases h
    exact ⟨rfl, fun idle => absurd idle (by simp only; decide)⟩
  simp only [nestedThenIncrement, forall_mem_cons]
  exact ⟨⟨_, _, rfl, rfl⟩, increment 1 (by decide) (by decide) (by decide), trivial,
    increment 2 (by decide) (by decide) (by decide), by simp⟩

def nestedCalled : Database Int × Session :=
  (runCalls counterOps 0 nestedThenIncrement (countersBegun, Session.start)).get rfl

def nestedAborted : Database Int × UndoPoint :=
  (tabort nestedCalled.1 0).get rfl

/-- A crash right after the CLR of the increment of counter 2 is safe. -/
theorem rollback_exactly_once_behind_clr :
    ∃ final mark s' pt s'', Reaches (undoStep counterOps) nestedAborted (final, .finished) ∧
      RollbackRun counterOps countersBegun.contents CrashSafe nestedAborted mark s' pt ∧
      mark = 5 ∧ Reaches (undoStep counterOps) (s', pt) (s'', .finished) ∧
      s''.contents = final.contents := by
  obtain ⟨final, finishes, every⟩ := rollback_exactly_once counterOps counterOps_rollbackable 0
    countersBegun countersBegun_begun (fun p => of_decide_eq_true rfl) nestedThenIncrement
    nestedThenIncrement_undoable nestedCalled.1 nestedCalled.2 rfl nofun nestedAborted rfl
  have h0 : RollbackRun counterOps countersBegun.contents CrashSafe nestedAborted _ _ _ := .start
  have h3 := h0.reaches ⟨3, rfl⟩
  have h4 := h3.crash _ _ _ _ _ countersBegun.pages trivial
    ⟨fun p => rfl, fun p => of_decide_eq_true rfl⟩ rfl
  obtain ⟨_, s'', finished, contents, _⟩ := every _ _ _ h4
  exact ⟨final, _, _, _, s'', finishes, h4, rfl, finished, contents⟩

/-- A crash in the logical undo that follows, right after the update that it logged:
the update is chained to the increment of counter 2, which recovery undoes a
second time. -/
theorem rollback_undoes_twice :
    ∃ final mark s' e,
      runCalls counterOps 0 nestedThenIncrement (countersBegun, Session.start) =
        some nestedCalled ∧ tabort nestedCalled.1 0 = some nestedAborted ∧
      Reaches (undoStep counterOps) nestedAborted (final, .finished) ∧ final.contents 2 = 0 ∧
      RollbackRun counterOps countersBegun.contents (fun _ _ _ => True) nestedAborted mark s'
        .finished ∧ s'.contents 2 = -1 ∧
      e ∈ nestedCalled.2.outstanding ∧ e.UpdatesPage ∧ clrCount s'.log e.LSN = 2 := by
  have h0 : RollbackRun counterOps countersBegun.contents (fun _ _ _ => True) nestedAborted
    _ _ _ := .start
  have h5 := h0.reaches ⟨5, rfl⟩
  have h6 := h5.crash _ _ _ _ _ countersBegun.pages trivial
    ⟨fun p => rfl, fun p => of_decide_eq_true rfl⟩ rfl
  have h14 := h6.reaches ⟨8, rfl⟩
  exact ⟨_, _, _, _, rfl, rfl, ⟨8, rfl⟩, rfl, h14, rfl, .head _, ⟨_, rfl, by decide⟩, rfl⟩

end Stasis
