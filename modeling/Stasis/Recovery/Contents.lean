import Stasis.Recovery.Solo

/-!
The contents of the pages along a rollback.

Whatever has been flushed, the contents of the pages are those that a replay of
the log gives. On this level an update and its compensation are functions on
contents, and so is a whole rollback: the undo of an update of a page rewrites
the page, and the undo of a logical entry applies the updates that it issues.
-/
namespace Stasis
open TransactionTable Database OperationTable
variable {C : Type} {ops : OperationTable C} {s : Database C}

section
variable (ops : OperationTable C)

def OperationTable.doOn (x : Int) (u : UpdateLogEntry) (c : Int → C) : Int → C :=
  match ops u.funcID with
  | none => c
  | some op => Function.update c u.page (op.run x u (c u.page))

def OperationTable.undoOn (x : Int) (u : UpdateLogEntry) (c : Int → C) : Int → C :=
  match (ops u.funcID).bind fun op => ops op.undo with
  | none => c
  | some undo => Function.update c u.page (undo.run x u (c u.page))

/-- The updates that the undo of a logical entry issues. -/
def OperationTable.issues (e : UpdateEntry) (c : Int → C) : List UpdateLogEntry :=
  match (ops e.update.funcID).bind fun op => ops op.undo with
  | none => []
  | some undo => undo.runLogical e.xid e.update c

def OperationTable.doAll (x : Int) (us : List UpdateLogEntry) (c : Int → C) : Int → C :=
  us.foldl (fun c u => ops.doOn x u c) c

def OperationTable.compensate (e : UpdateEntry) (c : Int → C) : Int → C :=
  if e.update.page = invalidPage then ops.doAll e.xid (ops.issues e c) c
  else ops.undoOn e.xid e.update c

/-- The contents after the rollback of the given entries, newest first. -/
def OperationTable.rollback (es : List LogEntry) (c : Int → C) : Int → C :=
  (es.filterMap LogEntry.toUpdate).foldl (fun c e => ops.compensate e c) c

end

theorem rollback_cons_other (other : e.toUpdate = none) (es : List LogEntry) (c : Int → C) :
    ops.rollback (e :: es) c = ops.rollback es c := by
  simp only [rollback, List.filterMap_cons_none other]

theorem rollback_cons_update (payload : e.payload = .updatelog u) (es : List LogEntry)
    (c : Int → C) :
    ops.rollback (e :: es) c =
      ops.rollback es (ops.compensate ⟨e.LSN, e.prevLSN, e.xid, u⟩ c) := by
  have update : e.toUpdate = some ⟨e.LSN, e.prevLSN, e.xid, u⟩ := by
    simp only [LogEntry.toUpdate, payload]
  simp only [rollback, List.filterMap_cons_some update, List.foldl_cons]

/-- An update of one page whose operation is its own redo. -/
def Repeatable (ops : OperationTable C) (u : UpdateLogEntry) : Prop :=
  Physical ops u ∧ ∀ op, ops u.funcID = some op → op.redo = u.funcID ∧
    (u.funcID = operationNoop → ∀ x c, op.run x u c = c)

/-- Updates that can be repeated, and taken back one by one. -/
def Reversible (ops : OperationTable C) (x : Int) : List UpdateLogEntry → (Int → C) → Prop
  | [], _ => True
  | u :: us, c => Repeatable ops u ∧ ops.undoOn x u (ops.doOn x u c) = c ∧
      Reversible ops x us (ops.doOn x u c)

/-- The contents that the log stands for. -/
def replayAll (ops : OperationTable C) (base : Int → C) (entries : List LogEntry) : Int → C :=
  fun p => replayPage ops p entries (base p)

theorem replayAll_concat (base : Int → C) (entries : List LogEntry) (e : LogEntry) (p : Int) :
    replayAll ops base (entries ++ [e]) p =
      match e.effect ops p with
      | none => replayAll ops base entries p
      | some f => f (replayAll ops base entries p) := by
  rw [replayAll, replayAll, replayPage, List.foldl_append]
  cases effect : e.effect ops p with
  | none => simp [effect, replayPage]
  | some f => simp [effect, replayPage]

theorem replayAll_update (repeatable : Repeatable ops u) (base : Int → C)
    (entries : List LogEntry) (lsn prevLSN x : Int) :
    replayAll ops base (entries ++ [⟨lsn, prevLSN, x, .updatelog u⟩]) =
      ops.doOn x u (replayAll ops base entries) := by
  obtain ⟨physical, own⟩ := repeatable
  obtain ⟨op, _, _, hop, _⟩ := physical.2.2.2.2.2
  obtain ⟨redo, noop⟩ := own op hop
  funext p
  rw [replayAll_concat]
  simp only [LogEntry.effect, physical.1, if_false, hop, redo, Option.bind_eq_bind,
    Option.bind_some, physical.load, doOn]
  by_cases same : p = u.page
  · subst same
    by_cases idle : u.funcID = operationNoop
    · simp [idle, noop idle]
    · simp [idle]
  · by_cases idle : u.funcID = operationNoop
    · simp [idle, same]
    · simp [idle, same]

theorem replayAll_clr (physical : Physical ops ce.update) (kind : ce.LSN ≠ -1) (base : Int → C)
    (entries : List LogEntry) (lsn prevLSN x : Int) :
    replayAll ops base (entries ++ [⟨lsn, prevLSN, x, .clrlog ce⟩]) =
      ops.undoOn ce.xid ce.update (replayAll ops base entries) := by
  obtain ⟨op, _, undo, hop, _, hundo⟩ := physical.2.2.2.2.2
  funext p
  rw [replayAll_concat]
  simp only [LogEntry.effect, kind, physical.1, or_self, if_false, hop, hundo,
    Option.bind_eq_bind, Option.bind_some, physical.load, undoOn]
  by_cases same : p = ce.update.page
  · subst same
    simp
  · simp [same]

/-- Records that redo passes over. -/
def Payload.Inert : Payload → Prop
  | .internallog | .xcommit | .xabort | .xend | .xprepare _ => True
  | .updatelog u => u.page = invalidPage
  | .clrlog ce => ce.LSN = -1

/-- The pages hold what the log stands for, and no page is ahead of the log. -/
structure Replayed (ops : OperationTable C) (base : Int → C) (s : Database C) : Prop where
  contents : s.contents = replayAll ops base s.log.entries
  below : ∀ p, (s.pages p).LSN < s.log.nextAvailableLSN

namespace Replayed
variable {base : Int → C} (replayed : Replayed ops base s)
include replayed

theorem below_write (prevLSN x : Int) (p : Payload) (q : Int) :
    (s.pages q).LSN < (s.log.writeEntry prevLSN x p).nextAvailableLSN :=
  (replayed.below q).trans (s.log.nextAvailableLSN_lt_writeEntry prevLSN x p)

theorem inert (s' : Database C) (inert : p.Inert) (log : s'.log = s.log.writeEntry prevLSN x p)
    (pages : s'.pages = s.pages) : Replayed ops base s' ∧ s'.contents = s.contents := by
  have same : s'.contents = s.contents := by
    unfold Database.contents
    rw [pages]
  refine ⟨⟨?_, fun q => ?_⟩, same⟩
  · rw [same, replayed.contents, log]
    refine (funext fun q => ?_).symm
    refine (replayAll_concat ..).trans ?_
    cases p with
    | internallog | xcommit | xabort | xend | xprepare _ => rfl
    | updatelog u =>
      have logical : u.page = invalidPage := inert
      simp [LogEntry.effect, logical]
    | clrlog ce =>
      have dummy : ce.LSN = -1 := inert
      simp [LogEntry.effect, dummy]
  · rw [pages, log]
    exact replayed.below_write prevLSN x p q

theorem rewrite (s' : Database C) (op : OperationImpl C) (e : UpdateEntry)
    (log : s'.log = s.log.writeEntry prevLSN x payload)
    (pages : s'.pages = Function.update s.pages p (op.runOn e s.log.nextAvailableLSN (s.pages p))) :
    s'.contents = Function.update s.contents p (op.run e.xid e.update (s.contents p)) ∧
      ∀ q, (s'.pages q).LSN < s'.log.nextAvailableLSN := by
  rw [runOn_of_lt op e (replayed.below p)] at pages
  refine ⟨?_, fun q => ?_⟩
  · funext q
    unfold Database.contents
    rw [pages]
    by_cases same : q = p
    · subst same
      simp
    · simp [same]
  · rw [pages, log]
    by_cases same : q = p
    · subst same
      simpa using s.log.nextAvailableLSN_lt_writeEntry prevLSN x payload
    · simpa [same] using replayed.below_write prevLSN x payload q

theorem update (repeatable : Repeatable ops u) (run : tupdate ops s xid u = some s') :
    Replayed ops base s' ∧ s'.contents = ops.doOn xid u s.contents := by
  have physical := repeatable.1
  obtain ⟨op, _, _, hop, _⟩ := physical.2.2.2.2.2
  unfold tupdate at run
  split at run
  · cases run
  simp only [stasisOperationDo, hop, physical.load, Option.bind_eq_bind, Option.bind_some,
    Option.bind_eq_some_iff] at run
  obtain ⟨l, _, result⟩ := run
  have same := Option.some.inj result
  have log : s'.log = s.log.writeEntry _ xid (.updatelog u) := (congrArg Database.log same).symm
  obtain ⟨contents, below⟩ := replayed.rewrite s' op ⟨s.log.nextAvailableLSN, l.prevLSN, xid, u⟩ log
    (congrArg Database.pages same).symm
  have result : ∀ c, ops.doOn xid u c = Function.update c u.page (op.run xid u (c u.page)) := by
    intro c
    simp only [doOn, hop]
  rw [result]
  refine ⟨⟨?_, below⟩, contents⟩
  rw [contents, ← result, replayed.contents, log]
  exact (replayAll_update repeatable base _ _ _ _).symm

theorem undo (physical : Physical ops e.update) (kind : e.LSN ≠ -1)
    (run : undoPhysical ops s e = some s') :
    Replayed ops base s' ∧ s'.contents = ops.undoOn e.xid e.update s.contents := by
  obtain ⟨op, _, undo, hop, _, hundo⟩ := physical.2.2.2.2.2
  obtain ⟨tbl, pages, rfl, _, done⟩ := undoPhysical_eq_some run
  simp only [stasisOperationUndo, hop, hundo, physical.load, replayed.below, if_true,
    Option.bind_eq_bind, Option.bind_some] at done
  obtain ⟨contents, below⟩ := replayed.rewrite
    { s.stasisLogWriteClr e with tbl := tbl, pages := pages } undo e rfl
    (Option.some.inj done).symm
  have result : ∀ c, ops.undoOn e.xid e.update c =
      Function.update c e.update.page (undo.run e.xid e.update (c e.update.page)) := by
    intro c
    simp only [undoOn, hop, hundo, Option.bind_some]
  rw [result]
  refine ⟨⟨?_, below⟩, contents⟩
  rw [contents, ← result, replayed.contents]
  exact (replayAll_clr physical kind base _ _ _ _).symm

end Replayed
end Stasis
