import Stasis.Library.Machine
import Stasis.Recovery.Undo
import Stasis.Session

/-!
One rollback, seen from the transaction that is rolled back.

`Rollback` says how far the undo pass of transaction `xid` has come: the entries
of its chain that it has passed are compensated, the ones that it still has to
visit are linked from where it stands. Each step of the pass keeps it and
brings the pass closer to its end, and so does whatever other transactions
write in the meantime.
-/
namespace Stasis
open TransactionTable Database Machine List
variable {C : Type}

/-- The log holds the compensation of an entry: the CLR that carries the update, or
the dummy CLR that closes the logical undo. Both continue behind the entry. -/
def Compensated (log : Log) (e : LogEntry) : Prop :=
  match e.payload with
  | .updatelog u => ∃ c ∈ log.entries, c.xid = e.xid ∧ c.prevLSN = e.prevLSN ∧
      c.payload = .clrlog (if u.page = invalidPage then
        ⟨invalidLsn, e.prevLSN, e.xid, ⟨operationNoop, invalidPage, []⟩⟩
      else ⟨e.LSN, e.prevLSN, e.xid, u⟩)
  | .internallog | .xcommit | .xabort | .xend | .xprepare _ | .clrlog _ => True

/-- An entry that the rollback of `xid` can meet. -/
def Doomed (ops : OperationTable C) (xid : Int) (e : LogEntry) : Prop :=
  e.xid = xid ∧ e.prevLSN < e.LSN ∧
  match e.payload with
  | .updatelog u => ops.Undoable u.funcID
  | .xprepare _ | .xabort | .clrlog _ => True
  | .internallog | .xcommit | .xend => False

/-- The pass does not stop at a prepare record on its way: the first one that it
meets comes after an XABORT record. -/
def Passable (reallyAborted : Bool) : List LogEntry → Prop
  | [] => True
  | e :: es =>
    match e.payload with
    | .xabort => True
    | .xprepare _ => reallyAborted = true
    | .internallog | .xcommit | .xend | .updatelog _ | .clrlog _ =>
      Passable reallyAborted es

theorem passable_true (es : List LogEntry) : Passable true es := by
  induction es with
  | nil => trivial
  | cons e es ih =>
    cases payload : e.payload <;> simp [Passable, payload, ih]

theorem passable_of_live (live : ∀ e ∈ es, ∀ recLSN, e.payload ≠ .xprepare recLSN) :
    Passable ra es := by
  induction es with
  | nil => trivial
  | cons e es ih =>
    have rest := ih fun d hd => live d (mem_cons_of_mem e hd)
    cases payload : e.payload with
    | xprepare recLSN => exact absurd payload (live e mem_cons_self recLSN)
    | internallog | xcommit | xabort | xend | updatelog _ | clrlog _ =>
      simp [Passable, payload, rest]

section
variable (ops : OperationTable C) (xid : Int) (full : List LogEntry)

/-- The pass has the entries `todo` of the chain `full` left. -/
structure Rolling (s : Database C) (todo : List LogEntry) : Prop where
  range : InRange xid
  active : (s.tbl xid).xid = xid
  split : ∃ past, full = past ++ todo ∧ ∀ e ∈ past, Compensated s.log e
  ahead : ∀ e ∈ todo, Doomed ops xid e ∧ e.LSN ≤ (s.tbl xid).prevLSN
  slot : ∃ d ∈ s.log.entries, d.LSN = (s.tbl xid).prevLSN

/-- What holds of the pass at each of its points, and how far it is from its end:
the second component counts the updates that a logical undo still issues. Once
the transaction has been forgotten its slot is not the pass's business any more. -/
def Rollback (rank : Nat × Nat) (s : Database C) : UndoPoint → Prop
  | .outer =>
    (rank = (full.length + 3, 0) ∧ ∃ first, s.rollbackLSNs = [first] ∧
      Chain s.log first full ∧ Rolling ops xid full s full ∧ full ≠ [] ∧
      Passable false full) ∨
    (rank = (0, 1) ∧ s.rollbackLSNs = [] ∧ ∀ e ∈ full, Compensated s.log e)
  | .inner off thisXid reallyAborted prepared =>
    s.rollbackLSNs = [] ∧ prepared = false ∧
    ∃ todo, rank = (todo.length + 2, 0) ∧ Chain s.log off todo ∧
      Rolling ops xid full s todo ∧ (todo = [] → thisXid = xid) ∧
      Passable reallyAborted todo
  | .logical ue pending reallyAborted =>
    s.rollbackLSNs = [] ∧
    (∀ v ∈ pending, v.page ≠ invalidPage ∧ ops.Undoable v.funcID) ∧
    ∃ e todo, rank = (todo.length + 2, pending.length + 1) ∧
      e.payload = .updatelog ue.update ∧ ue.update.page = invalidPage ∧
      ue = ⟨e.LSN, e.prevLSN, e.xid, ue.update⟩ ∧ Chain s.log e.prevLSN todo ∧
      (∀ d ∈ todo, d.LSN ≤ e.LSN) ∧ Rolling ops xid full s (e :: todo) ∧
      Passable reallyAborted todo
  | .finished => rank = (0, 0) ∧ s.rollbackLSNs = [] ∧ ∀ e ∈ full, Compensated s.log e

end

/-- The pass still holds the transaction's slot. -/
def Holds (s : Database C) : UndoPoint → Prop
  | .outer => s.rollbackLSNs ≠ []
  | .inner _ _ _ _ | .logical _ _ _ => True
  | .finished => False

/-- What a step of the pass can do to the log and the table. -/
structure Wrote (xid : Int) (full : List LogEntry) (s s' : Database C) : Prop where
  log : s'.log = s.log ∨ ∃ prevLSN p, s'.log = s.log.writeEntry prevLSN xid p ∧
    ∀ ce, p = .clrlog ce → ∃ e ∈ full, prevLSN = e.prevLSN
  others : ∀ y, y ≠ xid → s'.tbl y = s.tbl y
  whenFree : (s'.tbl xid).xidWhenFree = (s.tbl xid).xidWhenFree

theorem compensated_writeEntry {log : Log} (done : Compensated log e) (prevLSN xid : Int)
    (p : Payload) : Compensated (log.writeEntry prevLSN xid p) e := by
  cases payload : e.payload with
  | updatelog u =>
    simp only [Compensated, payload] at done ⊢
    obtain ⟨c, hc, clr⟩ := done
    exact ⟨c, mem_append_left _ hc, clr⟩
  | internallog | xcommit | xabort | xend | xprepare _ | clrlog _ =>
    simp only [Compensated, payload]

theorem chain_cons {log : Log} (chain : Chain log off (e :: todo)) :
    0 < off ∧ log.readEntry off = some e ∧ Chain log e.prevLSN todo := by
  cases chain with
  | visit _ _ _ pos read rest => exact ⟨pos, read, rest⟩

namespace Rolling
variable {s' : Database C}

theorem pass (rolling : Rolling ops xid full s (e :: todo))
    (kept : ∀ d, Compensated s.log d → Compensated s'.log d) (done : Compensated s'.log e)
    (active : (s'.tbl xid).xid = xid) (reach : e.LSN ≤ (s'.tbl xid).prevLSN)
    (sorted : ∀ d ∈ todo, d.LSN ≤ e.LSN)
    (slot : ∃ d ∈ s'.log.entries, d.LSN = (s'.tbl xid).prevLSN) :
    Rolling ops xid full s' todo := by
  obtain ⟨past, split, comp⟩ := rolling.split
  refine ⟨rolling.range, active, ⟨past ++ [e], by simp [split], fun d hd => ?_⟩, ?_, slot⟩
  · rcases mem_append.mp hd with hd | hd
    · exact kept d (comp d hd)
    · obtain rfl := mem_singleton.mp hd
      exact done
  · intro d hd
    exact ⟨(rolling.ahead d (mem_cons_of_mem e hd)).1, (sorted d hd).trans reach⟩

theorem keep (rolling : Rolling ops xid full s todo)
    (kept : ∀ d, Compensated s.log d → Compensated s'.log d)
    (active : (s'.tbl xid).xid = xid)
    (reach : (s.tbl xid).prevLSN ≤ (s'.tbl xid).prevLSN)
    (slot : ∃ d ∈ s'.log.entries, d.LSN = (s'.tbl xid).prevLSN) :
    Rolling ops xid full s' todo := by
  obtain ⟨past, split, comp⟩ := rolling.split
  exact ⟨rolling.range, active, ⟨past, split, fun d hd => kept d (comp d hd)⟩,
    fun d hd => ⟨(rolling.ahead d hd).1, (rolling.ahead d hd).2.trans reach⟩, slot⟩

theorem all_done (rolling : Rolling ops xid full s []) :
    ∀ e ∈ full, Compensated s.log e := by
  obtain ⟨past, split, comp⟩ := rolling.split
  rw [append_nil] at split
  rw [split]
  exact comp

theorem undo (rolling : Rolling ops xid full s (e :: todo)) {u : UpdateLogEntry}
    (mem : e ∈ s.log.entries) (sorted : ∀ d ∈ todo, d.LSN ≤ e.LSN)
    (payload : e.payload = .updatelog u) (physical : u.page ≠ invalidPage)
    (undo : undoPhysical ops s ⟨e.LSN, e.prevLSN, e.xid, u⟩ = some s') :
    Rolling ops xid full s' todo ∧ (s'.tbl xid).xidWhenFree = (s.tbl xid).xidWhenFree ∧
      (∀ y, y ≠ xid → s'.tbl y = s.tbl y) := by
  obtain ⟨⟨own, down, _⟩, reach⟩ := rolling.ahead e mem_cons_self
  subst own
  obtain ⟨tbl, pages, rfl, roll, _⟩ := undoPhysical_eq_some undo
  rw [rollForward_active e.LSN rolling.range rolling.active (by simp only; omega)] at roll
  cases roll
  refine ⟨rolling.pass (fun d h => compensated_writeEntry h _ _ _) ?_ ?_ ?_ sorted ?_, ?_, ?_⟩
  · simp only [Compensated, payload, physical, if_false]
    exact ⟨_, mem_append_right _ (mem_singleton_self _), rfl, rfl, rfl⟩
  · simpa using rolling.active
  · simp
  · exact ⟨e, mem_append_left _ mem, by simp⟩
  · simp
  · intro y ne
    simp [ne]

theorem sorted (rolling : Rolling ops xid full s (e :: todo)) {off : Int}
    (chain : Chain s.log off (e :: todo)) : ∀ d ∈ todo, d.LSN ≤ e.LSN := by
  have order := (chain_sorted chain fun d hd => (rolling.ahead d hd).1.2.1).2
  intro d hd
  exact ((pairwise_cons.mp order).1 d hd).le

end Rolling

section Step
variable {ops : OperationTable C} {xid : Int} {full : List LogEntry} {s : Database C}

/-- A step keeps the invariant, comes closer to the end and lets go of the slot
only by freeing it. -/
def Advances (ops : OperationTable C) (xid : Int) (full : List LogEntry)
    (rank : Nat × Nat) (s : Database C) (pt : UndoPoint) : Prop :=
  ∃ rank' s' pt', undoStep ops (s, pt) = some (s', pt') ∧
    Rollback ops xid full rank' s' pt' ∧ Prod.Lex (· < ·) (· < ·) rank' rank ∧
    Wrote xid full s s' ∧
    (Holds s pt → ¬ Holds s' pt' → (s'.tbl xid).xid = (s.tbl xid).xidWhenFree) ∧
    (¬ Holds s pt → s'.log = s.log ∧ s'.tbl = s.tbl ∧ ¬ Holds s' pt')

theorem wrote_nothing (log : s'.log = s.log) (tbl : s'.tbl = s.tbl) : Wrote xid full s s' :=
  ⟨.inl log, fun _ _ => by rw [tbl], by rw [tbl]⟩

theorem mem_full_of_rolling {todo : List LogEntry} (rolling : Rolling ops xid full s (e :: todo)) :
    e ∈ full := by
  obtain ⟨past, split, _⟩ := rolling.split
  rw [split]
  simp

theorem rollback_outer (inv : Rollback ops xid full rank s .outer) :
    Advances ops xid full rank s .outer := by
  rcases inv with ⟨rfl, first, list, chain, rolling, some, passable⟩ | ⟨rfl, list, done⟩
  · refine ⟨_, { s with rollbackLSNs := [] }, .inner first (-1) false false,
      by simp [undoStep, list], ⟨rfl, rfl, full, rfl, chain, ⟨rolling.range, rolling.active,
      rolling.split, rolling.ahead, rolling.slot⟩, fun none => absurd none some, passable⟩,
      .left _ _ (by omega), wrote_nothing rfl rfl, fun _ free => absurd trivial free,
      fun free => absurd (show s.rollbackLSNs ≠ [] by simp [list]) free⟩
  · refine ⟨_, s, .finished, by simp [undoStep, list], ⟨rfl, list, done⟩,
      .right _ (by omega), wrote_nothing rfl rfl, fun held => absurd list held,
      fun _ => ⟨rfl, rfl, fun held => held⟩⟩

theorem rollback_stop (idle : s.rollbackLSNs = []) (hrank : rank = (2, 0))
    (chain : Chain s.log off []) (rolling : Rolling ops xid full s []) (own : thisXid = xid) :
    Advances ops xid full rank s (.inner off thisXid ra false) := by
  subst own hrank
  have stop : ¬ 0 < off := by
    cases chain with
    | stop _ h => exact h
  obtain ⟨tbl, run, freed, whenFree, others⟩ := tforget_of_active s rolling.range rolling.active
  refine ⟨(0, 1), { s.stasisLogWriteCommon thisXid .xend with tbl := tbl }, .outer,
    by simp [undoStep, stop, run], .inr ⟨rfl, idle, fun e he => ?_⟩, .left _ _ (by omega),
    ⟨.inr ⟨_, .xend, rfl, fun ce h => by cases h⟩, others, whenFree⟩, fun _ _ => freed,
    fun free => absurd trivial free⟩
  exact compensated_writeEntry (rolling.all_done e he) _ _ _

theorem rollback_skip {ra' : Bool} (idle : s.rollbackLSNs = [])
    (hrank : rank = ((e :: todo).length + 2, 0)) (chain : Chain s.log off (e :: todo))
    (rolling : Rolling ops xid full s (e :: todo)) (free : Compensated s.log e)
    (passable : Passable ra' todo)
    (skip : undoEntry ops s e ra = some (s, .inner e.prevLSN e.xid ra' false)) :
    Advances ops xid full rank s (.inner off thisXid ra false) := by
  subst hrank
  obtain ⟨pos, read, rest⟩ := chain_cons chain
  refine ⟨(todo.length + 2, 0), s, .inner e.prevLSN e.xid ra' false,
    (undoStep_visit ra pos read).trans skip,
    ⟨idle, rfl, todo, rfl, rest, ?_, fun _ => (rolling.ahead e mem_cons_self).1.1,
      passable⟩, .left _ _ (by simp), wrote_nothing rfl rfl,
    fun _ free => absurd trivial free, fun free => absurd trivial free⟩
  exact rolling.pass (fun _ h => h) free rolling.active
    (rolling.ahead e mem_cons_self).2 (rolling.sorted chain) rolling.slot

section
variable (idle : s.rollbackLSNs = [])
  (hrank : rank = ((e :: todo).length + 2, 0)) (chain : Chain s.log off (e :: todo))
  (rolling : Rolling ops xid full s (e :: todo)) (payload : e.payload = .updatelog u)
include idle hrank chain rolling payload

theorem rollback_physical (physical : u.page ≠ invalidPage) (passable : Passable ra todo) :
    Advances ops xid full rank s (.inner off thisXid ra false) := by
  subst hrank
  obtain ⟨pos, read, rest⟩ := chain_cons chain
  obtain ⟨⟨own, down, kind⟩, reach⟩ := rolling.ahead e mem_cons_self
  simp only [payload] at kind
  obtain ⟨op, undo, hop, hundo⟩ := kind
  subst own
  obtain ⟨s', undo⟩ := undoPhysical_of_active (e := ⟨e.LSN, e.prevLSN, e.xid, u⟩) hop hundo
    rolling.range rolling.active (by simp only; omega)
  obtain ⟨rolling', whenFree, others⟩ := rolling.undo (chain_mem chain mem_cons_self)
    (rolling.sorted chain) payload physical undo
  have run : undoEntry ops s e ra = some (s', .inner e.prevLSN e.xid ra false) := by
    simp [undoEntry, payload, physical, undo]
  obtain ⟨tbl, pages, rfl, _⟩ := undoPhysical_eq_some undo
  exact ⟨(todo.length + 2, 0), _, _, (undoStep_visit ra pos read).trans run,
    ⟨idle, rfl, todo, rfl, chain_writeEntry rest _ _ _, rolling', fun _ => rfl, passable⟩,
    .left _ _ (by simp), ⟨.inr ⟨e.prevLSN, _, rfl, fun _ _ =>
      ⟨e, mem_full_of_rolling rolling, rfl⟩⟩, others, whenFree⟩,
    fun _ free => absurd trivial free, fun free => absurd trivial free⟩

theorem rollback_logical (closed : ops.Closed) (logical : u.page = invalidPage) (passable : Passable ra todo) :
    Advances ops xid full rank s (.inner off thisXid ra false) := by
  subst hrank
  obtain ⟨pos, read, rest⟩ := chain_cons chain
  obtain ⟨⟨_, _, kind⟩, _⟩ := rolling.ahead e mem_cons_self
  simp only [payload] at kind
  obtain ⟨op, undo, hop, hundo⟩ := kind
  refine ⟨(todo.length + 2, (undo.runLogical e.xid u s.contents).length + 1), s,
    .logical ⟨e.LSN, e.prevLSN, e.xid, u⟩ (undo.runLogical e.xid u s.contents) ra,
    (undoStep_visit ra pos read).trans (by simp [undoEntry, payload, logical, hop, hundo]),
    ⟨idle, closed _ undo _ _ _ hundo, e, todo, rfl, payload, logical, rfl,
      rest, rolling.sorted chain, rolling, passable⟩, .left _ _ (by simp), wrote_nothing rfl rfl,
    fun _ free => absurd trivial free, fun free => absurd trivial free⟩

end

theorem rollback_inside {ue : UpdateEntry}
    (inv : Rollback ops xid full rank s (.logical ue pending ra)) :
    Advances ops xid full rank s (.logical ue pending ra) := by
  obtain ⟨lsn, prevLSN, x, u⟩ := ue
  obtain ⟨idle, issues, e, todo, rfl, payload, logical, entry, chain, sorted, rolling,
    passable⟩ := inv
  simp only [UpdateEntry.mk.injEq, and_true] at entry
  obtain ⟨rfl, rfl, rfl⟩ := entry
  replace logical : u.page = invalidPage := logical
  obtain ⟨⟨own, _, _⟩, reach⟩ := rolling.ahead e mem_cons_self
  subst own
  cases pending with
  | nil =>
    refine ⟨(todo.length + 2, 0), s.stasisLogWriteDummyClr e.xid e.prevLSN,
      .inner e.prevLSN e.xid ra false, rfl, ⟨idle, rfl, todo, rfl,
      chain_writeEntry chain _ _ _, ?_, fun _ => rfl, passable⟩, .right _ (by simp),
      ⟨.inr ⟨e.prevLSN, _, rfl, fun _ _ => ⟨e, mem_full_of_rolling rolling, rfl⟩⟩,
      fun _ _ => rfl, rfl⟩, fun _ free => absurd trivial free,
      fun free => absurd trivial free⟩
    refine rolling.pass (fun d h => compensated_writeEntry h _ _ _) ?_ rolling.active
      reach sorted (rolling.slot.imp fun d hd => ⟨mem_append_left _ hd.1, hd.2⟩)
    simp only [Compensated, payload, logical, if_true]
    exact ⟨s.log.reserveEntry e.prevLSN e.xid (.clrlog ⟨invalidLsn, e.prevLSN, e.xid,
      ⟨operationNoop, invalidPage, []⟩⟩), by
        simp [stasisLogWriteDummyClr, stasisLogWriteClr], rfl, rfl, rfl⟩
  | cons v pending =>
    obtain ⟨physical, op, _, hop, _⟩ := issues v mem_cons_self
    obtain ⟨pages, run⟩ := undoStep_issue ra ⟨e.LSN, e.prevLSN, e.xid, u⟩ pending
      rolling.range rolling.active physical hop
    refine ⟨(todo.length + 2, pending.length + 1), _, _, run, ⟨idle,
      fun w hw => issues w (mem_cons_of_mem v hw), e, todo, rfl, payload, logical, rfl,
      chain_writeEntry chain _ _ _, sorted, ?_, passable⟩, .right _ (by simp), ⟨.inr ⟨_, .updatelog v,
      rfl, fun ce h => by cases h⟩, fun y ne => ?_, ?_⟩,
      fun _ free => absurd trivial free, fun free => absurd trivial free⟩
    · refine rolling.keep (fun d h => compensated_writeEntry h _ _ _) ?_ ?_ ?_
      · simpa [stasisLogWriteUpdate] using rolling.active
      · obtain ⟨d, hd, named⟩ := rolling.slot
        have below := s.log.below d hd
        simp only [stasisLogWriteUpdate, logWrite_tbl_prevLSN]
        omega
      · exact ⟨_, mem_append_right _ (mem_singleton_self _), by
          simp [stasisLogWriteUpdate]⟩
    · simp [stasisLogWriteUpdate, ne]
    · simp [stasisLogWriteUpdate]

theorem rollback_advances (closed : ops.Closed) (inv : Rollback ops xid full rank s pt)
    (running : pt ≠ .finished) : Advances ops xid full rank s pt := by
  cases pt with
  | finished => exact absurd rfl running
  | outer => exact rollback_outer inv
  | logical ue pending ra => exact rollback_inside inv
  | inner off thisXid ra prepared =>
    obtain ⟨idle, rfl, todo, hrank, chain, rolling, own, passable⟩ := inv
    cases todo with
    | nil => exact rollback_stop idle hrank chain rolling (own rfl)
    | cons e todo =>
      obtain ⟨_, _, kind⟩ := (rolling.ahead e mem_cons_self).1
      cases payload : e.payload with
      | xabort =>
        exact rollback_skip idle hrank chain rolling (by simp [Compensated, payload])
          (passable_true todo) (by simp [undoEntry, payload])
      | xprepare recLSN =>
        simp only [Passable, payload] at passable
        exact rollback_skip idle hrank chain rolling (by simp [Compensated, payload])
          (passable_true todo) (by simp [undoEntry, payload, passable])
      | clrlog ce =>
        simp only [Passable, payload] at passable
        exact rollback_skip idle hrank chain rolling (by simp [Compensated, payload])
          passable (by simp [undoEntry, payload])
      | updatelog u =>
        simp only [Passable, payload] at passable
        by_cases logical : u.page = invalidPage
        · exact rollback_logical idle hrank chain rolling payload closed logical passable
        · exact rollback_physical idle hrank chain rolling payload logical passable
      | internallog | xcommit | xend => simp [payload] at kind

theorem rollback_step (closed : ops.Closed) (inv : Rollback ops xid full rank s pt)
    (step : undoStep ops (s, pt) = some (s', pt')) :
    ∃ rank', Rollback ops xid full rank' s' pt' := by
  by_cases past : pt = .finished
  · subst past
    cases step
    exact ⟨rank, inv⟩
  · obtain ⟨rank', s'', pt'', run, inv', _⟩ := rollback_advances closed inv past
    rw [step] at run
    cases run
    exact ⟨rank', inv'⟩

section
variable (inv : Rollback ops xid full rank s (.inner off thisXid ra prepared))
include inv

theorem rollback_visited (pos : 0 < off) (read : s.log.readEntry off = some e) :
    ∃ todo, Chain s.log e.prevLSN todo ∧ Rolling ops xid full s (e :: todo) ∧
      Passable ra (e :: todo) := by
  obtain ⟨_, _, todo, _, chain, rolling, _, passable⟩ := inv
  cases chain with
  | stop _ h => exact absurd pos h
  | visit _ d todo _ read' rest =>
    cases read.symm.trans read'
    exact ⟨todo, rest, rolling, passable⟩

theorem rollback_stopped (stop : ¬ 0 < off) : Rolling ops xid full s [] ∧ thisXid = xid := by
  obtain ⟨_, _, todo, _, chain, rolling, own, _⟩ := inv
  cases chain with
  | stop _ _ => exact ⟨rolling, own rfl⟩
  | visit _ _ _ pos _ _ => exact absurd pos stop

end

theorem Wrote.compensated (wrote : Wrote xid full s s') (e : LogEntry)
    (done : Compensated s.log e) : Compensated s'.log e := by
  rcases wrote.log with same | ⟨prevLSN, p, grown, _⟩
  · rw [same]
    exact done
  · rw [grown]
    exact compensated_writeEntry done prevLSN xid p

/-- A rollback runs to its end, where the log holds every compensation. If the pass
held the slot, the slot is free. -/
theorem rollback_finishes (closed : ops.Closed) (inv : Rollback ops xid full rank s pt) :
    ∃ s', Reaches (undoStep ops) (s, pt) (s', .finished) ∧
      (∀ e ∈ full, Compensated s'.log e) ∧
      (∀ e, Compensated s.log e → Compensated s'.log e) ∧
      (Holds s pt → (s.tbl xid).xidWhenFree < 0 → (s'.tbl xid).xid < 0) := by
  obtain ⟨rank', st', run, ⟨inv', kept, free⟩, done⟩ := reaches_of_rank
    (P := fun rank st => Rollback ops xid full rank st.1 st.2 ∧
      (∀ e, Compensated s.log e → Compensated st.1.log e) ∧
      (Holds s pt → (s.tbl xid).xidWhenFree < 0 → (st.1.tbl xid).xidWhenFree < 0 ∧
        (¬ Holds st.1 st.2 → (st.1.tbl xid).xid < 0)))
    (g := fun st => st.2 = .finished) (Prod.lex Nat.lt_wfRel Nat.lt_wfRel).wf
    (fun rank st ⟨inv, kept, free⟩ running => by
      obtain ⟨rank', s', pt', step, inv', less, wrote, released, stays⟩ :=
        rollback_advances closed inv running
      refine ⟨rank', (s', pt'), step, ⟨inv', fun e done => wrote.compensated e (kept e done),
        fun held negative => ?_⟩, less⟩
      obtain ⟨whenFree, freed⟩ := free held negative
      refine ⟨by rw [wrote.whenFree]; exact whenFree, fun gone => ?_⟩
      by_cases holds : Holds st.1 st.2
      · rw [released holds gone]
        exact whenFree
      · rw [(stays holds).2.1]
        exact freed holds)
    rank (s, pt) ⟨inv, fun _ done => done,
      fun held negative => ⟨negative, fun gone => absurd held gone⟩⟩
  obtain ⟨s', pt'⟩ := st'
  subst done
  exact ⟨s', run, inv'.2.2, kept, fun held negative => (free held negative).2 id⟩

/-- The rollback that an abort schedules starts at its XABORT record, and passes every
entry with a positive LSN. -/
theorem rollback_start (session : SessionInv ops xid s g) (shape : g.outstanding = a :: rest)
    (abort : a.payload = .xabort) (pos : 0 < a.LSN) :
    (s.tbl xid).prevLSN = a.LSN ∧ ∃ rank, Rollback ops xid
      (g.outstanding.filter fun e => 0 < e.LSN) rank
      { s with rollbackLSNs := [(s.tbl xid).prevLSN] } .outer := by
  have newest : (s.tbl xid).prevLSN = a.LSN := by
    have backed := session.backed
    rw [shape] at backed
    generalize (s.tbl xid).prevLSN = lsn at backed
    cases backed
    rfl
  have chain := chain_of_backed session.backed
  have down : ∀ e ∈ g.outstanding, e.prevLSN < e.LSN :=
    fun e he => (backed_mem session.backed he).2
  have sorted := (chain_sorted chain fun e he => down e (mem_filter.mp he).1).1
  have head : g.outstanding.filter (fun e => 0 < e.LSN) =
      a :: rest.filter fun e => 0 < e.LSN := by
    rw [shape, filter_cons_of_pos (by simpa using pos)]
  refine ⟨newest, _, .inl ⟨rfl, _, rfl, chain, ⟨session.range, session.active,
    ⟨[], rfl, by simp⟩, fun e he => ⟨?_, sorted e he⟩, a, ?_, newest.symm⟩,
    by simp [head], by simp [head, Passable, abort]⟩⟩
  swap
  · exact (backed_mem session.backed (by simp [shape])).1
  have mem := (mem_filter.mp he).1
  obtain ⟨own, kind⟩ := session.running e mem
  refine ⟨own, down e mem, ?_⟩
  cases payload : e.payload <;> simp_all

end Step

theorem Grew.compensated {log log' : Log} (grew : Grew log log') (e : LogEntry)
    (done : Compensated log e) : Compensated log' e := by
  rcases grew with rfl | ⟨prevLSN, xid, p, rfl⟩
  · exact done
  · exact compensated_writeEntry done prevLSN xid p

theorem Rolling.frame {todo : List LogEntry} (rolling : Rolling ops xid full s todo)
    (grew : Grew s.log s'.log) (slot : s'.tbl xid = s.tbl xid) :
    Rolling ops xid full s' todo := by
  refine rolling.keep grew.compensated ?_ ?_ ?_
  · rw [slot]
    exact rolling.active
  · rw [slot]
  · rw [slot]
    obtain ⟨d, hd, named⟩ := rolling.slot
    exact ⟨d, grew.mem hd, named⟩

theorem rollback_frame (inv : Rollback ops xid full rank s pt) (grew : Grew s.log s'.log)
    (list : s'.rollbackLSNs = s.rollbackLSNs) (slot : Holds s pt → s'.tbl xid = s.tbl xid) :
    Rollback ops xid full rank s' pt := by
  cases pt with
  | outer =>
    rcases inv with ⟨hrank, first, one, chain, rolling, rest⟩ | ⟨hrank, idle, done⟩
    · have held : Holds s .outer := by simp [Holds, one]
      exact .inl ⟨hrank, first, list.trans one, grew.chain chain,
        rolling.frame grew (slot held), rest⟩
    · exact .inr ⟨hrank, list.trans idle, fun e he => grew.compensated e (done e he)⟩
  | inner off thisXid ra prepared =>
    obtain ⟨idle, open', todo, hrank, chain, rolling, rest⟩ := inv
    exact ⟨list.trans idle, open', todo, hrank, grew.chain chain,
      rolling.frame grew (slot trivial), rest⟩
  | logical ue pending ra =>
    obtain ⟨idle, issues, e, todo, hrank, payload, logical, entry, chain, sorted, rolling,
      passable⟩ := inv
    exact ⟨list.trans idle, issues, e, todo, hrank, payload, logical, entry,
      grew.chain chain, sorted, rolling.frame grew (slot trivial), passable⟩
  | finished =>
    exact ⟨inv.1, list.trans inv.2.1, fun e he => grew.compensated e (inv.2.2 e he)⟩

end Stasis
