import Stasis.Recovery.Prepared

/-!
Recovery of a transaction that was aborted after a prepare.

Recovery resumes the rollback at the newest record of the transaction. From
there it runs to the end exactly when it meets no prepare record; otherwise it
stops at the record and the transaction stays in the table.
-/
namespace Stasis
open TransactionTable Database Machine List Option
variable {C : Type} {ops : OperationTable C} {xid : Int} {s s' : Database C}

theorem passable_false_iff {es : List LogEntry} (live : ∀ e ∈ es, e.payload ≠ .xabort) :
    Passable false es ↔ ∀ p ∈ es, ∀ recLSN, p.payload ≠ .xprepare recLSN := by
  induction es with
  | nil => simp [Passable]
  | cons e es ih =>
    have rest := ih fun d hd => live d (mem_cons_of_mem e hd)
    have here := live e mem_cons_self
    cases payload : e.payload with
    | xabort => exact absurd payload here
    | xprepare recLSN => simp [Passable, payload]
    | internallog | xcommit | xend | updatelog _ | clrlog _ =>
      simp only [Passable, payload, rest, forall_mem_cons]
      simp

section
variable (ops : OperationTable C) (xid : Int) (s : Database C)

/-- The walk from `off` is going to stop at a prepare record. -/
def Stuck (off : Int) : Prop :=
  ∃ full todo, Chain s.log off todo ∧ Rolling ops xid full s todo ∧
    (∀ e ∈ todo, e.payload ≠ .xabort ∧
      ∀ u, e.payload = .updatelog u → u.page ≠ invalidPage) ∧
    ∃ p ∈ todo, ∃ recLSN, p.payload = .xprepare recLSN

/-- The pass leaves the transaction in the table. -/
def Revived (pt : UndoPoint) : Prop :=
  InRange xid ∧ (s.tbl xid).xid = xid ∧
  match pt with
  | .outer => s.rollbackLSNs = [] ∨ ∃ first, s.rollbackLSNs = [first] ∧ Stuck ops xid s first
  | .inner off _ reallyAborted prepared =>
    s.rollbackLSNs = [] ∧ (prepared = true ∨ reallyAborted = false ∧ Stuck ops xid s off)
  | .logical _ _ _ => False
  | .finished => True

end

/-- A stuck walk reads an entry, and unless that is a prepare record it is stuck
behind the entry as well. -/
theorem Stuck.visit {off : Int} (stuck : Stuck ops xid s off) :
    0 < off ∧ ∀ e, s.log.readEntry off = some e →
      ∃ full todo, Chain s.log e.prevLSN todo ∧ Rolling ops xid full s (e :: todo) ∧
        (∀ d ∈ todo, d.LSN ≤ e.LSN) ∧
        (∀ d ∈ e :: todo, d.payload ≠ .xabort ∧
          ∀ u, d.payload = .updatelog u → u.page ≠ invalidPage) ∧
        ((∃ recLSN, e.payload = .xprepare recLSN) ∨
          ∃ p ∈ todo, ∃ recLSN, p.payload = .xprepare recLSN) := by
  obtain ⟨full, todo, chain, rolling, kinds, p, hp, recLSN, payload⟩ := stuck
  cases chain with
  | stop _ _ => exact absurd hp not_mem_nil
  | visit _ d todo pos read rest =>
    refine ⟨pos, fun e read' => ?_⟩
    cases read.symm.trans read'
    refine ⟨full, todo, rest, rolling, rolling.sorted (.visit off d todo pos read rest), kinds,
      ?_⟩
    cases hp with
    | head => exact .inl ⟨recLSN, payload⟩
    | tail _ hp => exact .inr ⟨p, hp, recLSN, payload⟩

theorem revived_step (inv : Revived ops xid s pt) (step : undoStep ops (s, pt) = some (s', pt')) :
    Revived ops xid s' pt' := by
  obtain ⟨range, active, inv⟩ := inv
  cases undoStep_eq_some step with
  | idle none => exact ⟨range, active, trivial⟩
  | take rollback rest list =>
    cases inv with
    | inl none =>
      rw [list] at none
      cases none
    | inr some =>
      obtain ⟨first, one, full, todo, chain, rolling, ahead⟩ := some
      rw [list] at one
      obtain ⟨rfl, rfl⟩ := List.cons.inj one
      exact ⟨range, active, rfl, .inr ⟨rfl, full, todo, chain, ⟨rolling.range,
        rolling.active, rolling.split, rolling.ahead, rolling.slot⟩, ahead⟩⟩
  | leave off thisXid ra => exact ⟨range, active, .inl inv.1⟩
  | stop off thisXid ra s' stop forget =>
    obtain ⟨_, stuck⟩ := inv
    simp only [Bool.false_eq_true, false_or] at stuck
    exact absurd stuck.2.visit.1 stop
  | skip off thisXid ra ra' e pos read skipped =>
    obtain ⟨idle, stuck⟩ := inv
    simp only [Bool.false_eq_true, false_or] at stuck
    obtain ⟨rfl, stuck⟩ := stuck
    obtain ⟨full, todo, rest, rolling, sorted, kinds, ahead⟩ := stuck.visit.2 e read
    have pass : Compensated s.log e → Rolling ops xid full s todo := fun done =>
      rolling.pass (fun _ h => h) done rolling.active
        (rolling.ahead e mem_cons_self).2 sorted rolling.slot
    generalize payload : e.payload = p at skipped
    cases skipped with
    | clr ce =>
      refine ⟨range, active, idle, .inr ⟨rfl, full, todo, rest,
        pass (by simp [Compensated, payload]), fun d hd => kinds d (.tail e hd), ?_⟩⟩
      simpa [payload] using ahead
    | abort => exact absurd payload (kinds e mem_cons_self).1
  | prepared off thisXid recLSN e tbl pos read payload roll =>
    obtain ⟨idle, stuck⟩ := inv
    simp only [Bool.false_eq_true, false_or] at stuck
    obtain ⟨full, todo, rest, rolling, _⟩ := stuck.2.visit.2 e read
    obtain ⟨⟨own, down, _⟩, reach⟩ := rolling.ahead e mem_cons_self
    subst own
    have kept : (tbl e.xid).xid = e.xid := by
      simp only [rollForwardWithRecLSN] at roll
      split at roll
      · rw [rollForward_active e.LSN range active (by omega)] at roll
        rw [← some.inj roll]
        simpa using active
      · cases roll
    exact ⟨range, kept, idle, .inl rfl⟩
  | undo off thisXid ra e u s' pos read payload physical undo =>
    obtain ⟨idle, stuck⟩ := inv
    simp only [Bool.false_eq_true, false_or] at stuck
    obtain ⟨rfl, stuck⟩ := stuck
    obtain ⟨full, todo, rest, rolling, sorted, kinds, ahead⟩ := stuck.visit.2 e read
    have mem := (s.log.readEntry_eq_some_iff.mp read).1
    obtain ⟨rolling', _, _⟩ := rolling.undo mem sorted payload physical undo
    obtain ⟨tbl, pages, rfl, _⟩ := undoPhysical_eq_some undo
    refine ⟨range, rolling'.active, idle, .inr ⟨rfl, full, todo,
      chain_writeEntry rest _ _ _, rolling', fun d hd => kinds d (.tail e hd), ?_⟩⟩
    simpa [payload] using ahead
  | enter off thisXid ra e u op undo pos read payload logical hop hundo =>
    obtain ⟨_, stuck⟩ := inv
    simp only [Bool.false_eq_true, false_or] at stuck
    obtain ⟨full, todo, _, _, _, kinds, _⟩ := stuck.2.visit.2 e read
    exact absurd logical ((kinds e mem_cons_self).2 u payload)
  | issue e u pending ra s' issue => exact absurd inv id
  | close e ra => exact absurd inv id
  | finished => exact ⟨range, active, trivial⟩

theorem revived_run {pt pt' : UndoPoint} (inv : Revived ops xid s pt)
    (run : Reaches (undoStep ops) (s, pt) (s', pt')) : Revived ops xid s' pt' :=
  run.invariant (P := fun st => Revived ops xid st.1 st.2) (fun _ _ => revived_step) inv

theorem ResumesAt.mem_hist {log : Log} (resumes : ResumesAt xid hist log last resume)
    (he : e ∈ resume) : e ∈ hist := by
  cases resumes.2.2.2 with
  | inl abort =>
    rw [← abort.2]
    exact he
  | inr clr =>
    obtain ⟨d, u, newer, split, _⟩ := clr
    simp [split, he]

section
variable (plain : PlainEntries ops xid a hist) (inv : PlainRollback ops xid a hist s pt)
  (resumes : ResumesAt xid hist s.log last resume)
include plain inv resumes

theorem recover_resumes (disk : Pages C) :
    ∃ tbl pages, stasisRecoveryInitiate ops s.log disk =
        some (⟨s.log, tbl, pages, [last.LSN]⟩, .outer) ∧
      Chain s.log last.LSN (last :: resume) ∧
      Rolling ops xid (last :: resume) ⟨s.log, tbl, pages, [last.LSN]⟩ (last :: resume) ∧
      (tbl xid).xidWhenFree < 0 := by
  obtain ⟨newest, rest, down, kind⟩ := resumes
  obtain ⟨mem, own⟩ := mem_of_lastOf newest
  have unfinished : last.payload.Unfinished ∧ Doomed ops xid last := by
    cases kind with
    | inl abort => simp [Doomed, abort.1, own, down, Payload.Unfinished]
    | inr clr =>
      obtain ⟨_, _, _, _, _, payload, _⟩ := clr
      simp [Doomed, payload, own, down, Payload.Unfinished]
  have doomed : ∀ e ∈ last :: resume, Doomed ops xid e := by
    intro e he
    cases he with
    | head => exact unfinished.2
    | tail _ he => exact plain.doomed e (ResumesAt.mem_hist ⟨newest, rest, down, kind⟩ he)
  have chain : Chain s.log last.LSN (last :: resume) :=
    .visit _ last _ (durable_pos inv.durable mem) (s.log.readEntry_of_mem mem) rest
  obtain ⟨tbl, pages, list, run, started, _, whenFree, _⟩ := inv.solo.recover disk
  obtain ⟨rfl, active, slot⟩ := started last newest unfinished.1
  refine ⟨tbl, pages, run, chain, ⟨inv.solo.range, active, ⟨[], rfl, by simp⟩, fun e he => ?_,
    last, mem, slot.symm⟩, by rw [whenFree]; decide⟩
  refine ⟨doomed e he, ?_⟩
  rw [slot]
  exact (chain_sorted chain fun d hd => (doomed d hd).2.1).1 e he

theorem noPrepareBelow_iff : NoPrepareBelow xid s.log ↔ Passable false (last :: resume) := by
  have live : ∀ e ∈ resume, e.payload ≠ .xabort := by
    intro e he
    exact plain.live (resumes.mem_hist he)
  have inLog : ∀ e ∈ resume, e ∈ s.log.entries := fun e he => chain_mem resumes.2.1 he
  obtain ⟨newest, _, _, kind⟩ := resumes
  cases kind with
  | inl abort =>
    simp only [Passable, abort.1, iff_true]
    intro c ce last' clr
    rw [newest] at last'
    rw [← some.inj last', abort.1] at clr
    cases clr
  | inr clr =>
    obtain ⟨e, u, newer, split, _, payload, _⟩ := clr
    have sorted := plain.sorted
    rw [split] at sorted
    obtain ⟨_, older, newerThan⟩ := pairwise_append.mp sorted
    simp only [Passable, payload, passable_false_iff live]
    constructor
    · intro none p hp recLSN prepare
      have lt := none last _ newest payload p (inLog p hp) recLSN prepare
      have gt := (pairwise_cons.mp older).1 p hp
      simp only at lt
      omega
    · intro none c ce last' clr p hp recLSN prepare
      rw [newest] at last'
      rw [← some.inj last', payload] at clr
      rw [← Payload.clrlog.inj clr]
      have mem := inv.prepares p hp recLSN prepare
      rw [split] at mem
      cases mem_append.mp mem with
      | inl mem => exact newerThan p mem e mem_cons_self
      | inr mem =>
        cases mem with
        | head => simp_all
        | tail _ mem => exact absurd prepare (none p mem recLSN)

end

section
variable (resumes : ResumesAt xid hist s.log last resume) (list : s.rollbackLSNs = [last.LSN])
  (chain : Chain s.log last.LSN (last :: resume))
  (rolling : Rolling ops xid (last :: resume) s (last :: resume))
include resumes list chain rolling

theorem resume_revived (plain : PlainEntries ops xid a hist)
    (stuck : ¬ Passable false (last :: resume))
    (finished : Reaches (undoStep ops) (s, .outer) (s', .finished)) : s'.tbl.IsActive xid := by
  cases resumes.2.2.2 with
  | inl abort => exact absurd (by simp [Passable, abort.1]) stuck
  | inr clr =>
    obtain ⟨e, u, newer, split, _, payload, _⟩ := clr
    have kinds : ∀ d ∈ last :: resume, d.payload ≠ .xabort ∧
        ∀ v, d.payload = .updatelog v → v.page ≠ invalidPage := by
      intro d hd
      cases hd with
      | head => simp [payload]
      | tail _ hd =>
        have old := resumes.mem_hist hd
        exact ⟨plain.live old, fun v update => (plain.physical (.tail a old) update).2.1⟩
    rw [passable_false_iff fun d hd => (kinds d hd).1] at stuck
    push Not at stuck
    have revived : Revived ops xid s .outer :=
      ⟨rolling.range, rolling.active, .inr ⟨_, list, _, _, chain, rolling, kinds, stuck⟩⟩
    have left := revived_run revived finished
    exact ⟨left.1.1, left.2.1⟩

theorem resume_complete (closed : ops.Closed)
    (whenFree : (s.tbl xid).xidWhenFree < 0) (passable : Passable false (last :: resume)) :
    ∃ s', Reaches (undoStep ops) (s, .outer) (s', .finished) ∧ ¬ s'.tbl.IsActive xid ∧
      ∀ e ∈ hist, Compensated s'.log e := by
  have start : Rollback ops xid (last :: resume) ((last :: resume).length + 3, 0) s .outer :=
    .inl ⟨rfl, _, list, chain, rolling, by simp, passable⟩
  obtain ⟨s', finished, done, kept, freed⟩ := rollback_finishes closed start
  have free := freed (by simp [Holds, list]) whenFree
  refine ⟨s', finished, fun active => ?_, fun e he => ?_⟩
  · have same := active.2
    have range := active.1
    omega
  · cases resumes.2.2.2 with
    | inl abort =>
      rw [abort.2] at done
      exact done e (mem_cons_of_mem last he)
    | inr clr =>
      obtain ⟨d, u, newer, split, _, _, already⟩ := clr
      rw [split, append_cons] at he
      cases mem_append.mp he with
      | inl he => exact kept e (already e he)
      | inr he => exact done e (mem_cons_of_mem last he)

end

theorem ended_recovers (inv : PlainRollback ops xid a hist s pt) (gone : ¬ Holds s pt)
    (disk : Pages C) :
    ∃ recovered s', stasisRecoveryInitiate ops s.log disk = some recovered ∧
      Reaches (undoStep ops) recovered (s', .finished) ∧ ¬ s'.tbl.IsActive xid ∧
      (∀ e ∈ hist, Compensated s'.log e) ∧ NoPrepareBelow xid s.log := by
  obtain ⟨last, newest, payload⟩ := inv.ended gone
  obtain ⟨tbl, pages, list, run, _, ends, _⟩ := inv.solo.recover disk
  obtain ⟨rfl, free⟩ := ends last newest (by rw [payload]; trivial)
  refine ⟨_, _, run, .single rfl, fun active => ?_, fun e he => ?_, fun c ce last' clr => ?_⟩
  · have same := active.2
    have range := active.1
    rw [free] at same
    simp only [invalidXtableXid, invalidXid] at same
    omega
  · obtain ⟨rank, rollback⟩ := inv.rollback
    cases pt with
    | outer =>
      cases rollback with
      | inl held =>
        obtain ⟨_, first, list, _⟩ := held
        exact absurd (by simp [Holds, list]) gone
      | inr past => exact past.2.2 e (.tail a he)
    | inner _ _ _ _ | logical _ _ _ => exact absurd trivial gone
    | finished => exact rollback.2.2 e (.tail a he)
  · rw [newest] at last'
    rw [← some.inj last', payload] at clr
    cases clr

theorem plainRollback_recovers (closed : ops.Closed) (plain : PlainEntries ops xid a hist)
    (inv : PlainRollback ops xid a hist s pt) (disk : Pages C) :
    ∃ recovered, stasisRecoveryInitiate ops s.log disk = some recovered ∧
      ((∃ s', Reaches (undoStep ops) recovered (s', .finished) ∧ ¬ s'.tbl.IsActive xid ∧
        ∀ e ∈ hist, Compensated s'.log e) ↔ NoPrepareBelow xid s.log) := by
  by_cases holds : Holds s pt
  · obtain ⟨last, resume, resumes⟩ := inv.held holds
    obtain ⟨tbl, pages, run, chain, rolling, whenFree⟩ := recover_resumes plain inv resumes disk
    refine ⟨_, run, ?_⟩
    rw [noPrepareBelow_iff plain inv resumes]
    constructor
    · intro ⟨s', finished, forgotten, _⟩
      by_contra stuck
      exact forgotten (resume_revived (s := ⟨s.log, tbl, pages, [last.LSN]⟩) resumes rfl chain
        rolling plain stuck finished)
    · exact resume_complete (s := ⟨s.log, tbl, pages, [last.LSN]⟩) resumes rfl chain
        rolling closed whenFree
  · obtain ⟨recovered, s', run, finished, forgotten, done, none⟩ := ended_recovers inv holds disk
    exact ⟨recovered, run, iff_of_true ⟨s', finished, forgotten, done⟩ none⟩

theorem silent_abort (inv : SoloSession ops xid s g) (plain : PlainHistory ops s g)
    (none : g.outstanding = []) (abort : tabort s xid = some start)
    (run : Reaches (undoStep ops) start (s', pt)) : s'.log.entries = [] := by
  have invalid := inv.prevLSN_eq_invalid_iff.mpr none
  have empty := plain.entries
  simp only [tabort, TransactionTable.get, inv.session.range, inv.session.active, and_self,
    if_true, bind_eq_bind, bind_some, invalid, ne_eq, not_true_eq_false,
    if_false, bind_eq_some_iff] at abort
  obtain ⟨tbl, _, result⟩ := abort
  cases result
  refine (run.invariant (P := fun st => st.2 = .finished ∧ st.1.log.entries = [])
    (fun st st' past step => ?_) ⟨rfl, by simpa [none] using empty⟩).2
  obtain ⟨s, pt⟩ := st
  obtain ⟨rfl, empty⟩ := past
  cases step
  exact ⟨rfl, empty⟩

/-- Whatever a transaction updated and prepared before it was aborted, and however
much of its rollback reached the log behind the XABORT record: recovery rolls
it back and forgets it exactly when no prepare record lies below the update
that the newest CLR compensates. -/
theorem aborted_forgotten_iff (ops : OperationTable C) (closed : ops.Closed) (xid : Int)
    (s₀ : Database C) (begun : Begun xid s₀) (calls : List Call)
    (kinds : ∀ c ∈ calls, c.UpdatesOrPrepares ops) (s : Database C) (g : Session)
    (called : runCalls ops xid calls (s₀, Session.start) = some (s, g))
    (start : Database C × UndoPoint) (abort : tabort s xid = some start)
    (s' : Database C) (pt : UndoPoint) (rolled : Reaches (undoStep ops) start (s', pt))
    (aborted : ∃ a ∈ s'.log.entries, a.payload = .xabort) (disk : Pages C) :
    ∃ recovered, stasisRecoveryInitiate ops s'.log disk = some recovered ∧
      ((∃ s'', Reaches (undoStep ops) recovered (s'', .finished) ∧ ¬ s''.tbl.IsActive xid ∧
        ∀ e ∈ g.outstanding, Compensated s''.log e) ↔ NoPrepareBelow xid s'.log) := by
  have session := (SoloSession.start begun).runCalls (fun c hc => (kinds c hc).sound) called
  have plain : PlainHistory ops s g :=
    PlainHistory.runCalls ⟨begun.empty, by simp [Session.start]⟩ kinds called
  by_cases logged : g.outstanding = []
  · obtain ⟨a, mem, _⟩ := aborted
    rw [silent_abort session plain logged abort rolled] at mem
    exact absurd mem not_mem_nil
  · obtain ⟨run, entries, rollback⟩ := plainRollback_abort session plain logged
    rw [abort] at run
    cases run
    exact plainRollback_recovers closed entries (rollback.run closed entries rolled) disk

/-- An increment, a prepare and another increment. -/
def incrementPrepareIncrement : List Call :=
  [.update ⟨operationIncrement, 1, []⟩, .prepare, .update ⟨operationIncrement, 2, []⟩]

theorem incrementPrepareIncrement_kinds :
    ∀ c ∈ incrementPrepareIncrement, c.UpdatesOrPrepares counterOps := by
  simp only [incrementPrepareIncrement, forall_mem_cons]
  refine ⟨?_, trivial, ?_, by simp⟩
  all_goals exact ⟨by decide, by decide, by decide, by decide, by decide, _, _, _, rfl, rfl, rfl⟩

/-- A crash right after the XABORT record. -/
theorem aborted_forgotten_before_clr :
    ∃ s g start s' pt recovered s'',
      runCalls counterOps 0 incrementPrepareIncrement (countersBegun, Session.start) =
        some (s, g) ∧ tabort s 0 = some start ∧
      Reaches (undoStep counterOps) start (s', pt) ∧
      stasisRecoveryInitiate counterOps s'.log s'.pages = some recovered ∧
      Reaches (undoStep counterOps) recovered (s'', .finished) ∧ ¬ s''.tbl.IsActive 0 := by
  obtain ⟨recovered, run, outcome⟩ := aborted_forgotten_iff counterOps counterOps_closed 0
    countersBegun countersBegun_begun incrementPrepareIncrement incrementPrepareIncrement_kinds
    _ _ rfl _ rfl _ _ (.refl _) ⟨_, .tail _ (.tail _ (.tail _ (.head _))), rfl⟩ _
  obtain ⟨s'', finished, forgotten, _⟩ := outcome.mpr fun c ce newest clr => by
    cases newest
    cases clr
  exact ⟨_, _, _, _, _, recovered, s'', rfl, rfl, .refl _, run, finished, forgotten⟩

/-- A crash right after the CLR of the second increment: the resumed rollback starts
below the XABORT record, stops at the prepare record, and leaves the transaction
active with its first increment in place. -/
theorem aborted_revived_behind_clr :
    ∃ s g start s' pt recovered s'' e,
      runCalls counterOps 0 incrementPrepareIncrement (countersBegun, Session.start) =
        some (s, g) ∧ tabort s 0 = some start ∧
      Reaches (undoStep counterOps) start (s', pt) ∧
      (∃ a ∈ s'.log.entries, a.payload = .xabort) ∧
      stasisRecoveryInitiate counterOps s'.log s'.pages = some recovered ∧
      Reaches (undoStep counterOps) recovered (s'', .finished) ∧ s''.tbl.IsActive 0 ∧
      e ∈ g.outstanding ∧ e.toUpdate = some ⟨8, -1, 0, ⟨operationIncrement, 1, []⟩⟩ ∧
      s''.contents 1 = 1 := by
  refine ⟨_, _, _, _, _, _, _, _, rfl, rfl, ⟨3, rfl⟩, ⟨_, .tail _ (.tail _ (.tail _ (.head _))),
    rfl⟩, rfl, ⟨5, rfl⟩, ⟨by decide, rfl⟩, .tail _ (.tail _ (.head _)), rfl, rfl⟩

end Stasis
