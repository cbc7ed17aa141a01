import Stasis.Library.StampedReplay
import Stasis.Log.History
import Stasis.Operations

/-!
The redo pass of recovery.

Redo reads the log from the front. Every entry rolls the transaction table
forward, and the page LSN decides whether the entry still has to be applied to
its page: an update through the redo operation, a CLR through the undo operation
of the entry that it carries and under the LSN of the CLR. Seen from one page
the pass is a replay of the entries that touch it, guarded by the page LSN.
-/
namespace Stasis
open TransactionTable List LogEntry
variable {C : Type}

def redoTable (tbl : TransactionTable) (e : LogEntry) : Option TransactionTable :=
  match e.payload with
  | .internallog => some tbl
  | .xcommit | .xend => do
      let tbl ← tbl.rollForward e.xid e.LSN e.prevLSN
      tbl.forget e.xid
  | .updatelog _ | .clrlog _ | .xabort | .xprepare _ =>
    tbl.rollForward e.xid e.LSN e.prevLSN

section
variable (ops : OperationTable C)

def redoPages (pages : Pages C) (e : LogEntry) : Option (Pages C) :=
  match e.payload with
  | .updatelog u =>
    if u.page = invalidPage then some pages
    else stasisOperationRedo ops ⟨e.LSN, e.prevLSN, e.xid, u⟩
      (loadPageForOperation u.page) pages
  | .clrlog ce =>
    if ce.LSN = -1 then some pages
    else if ce.update.page = invalidPage then some pages
    else stasisOperationUndo ops ce e.LSN (loadPageForOperation ce.update.page) pages
  | .xcommit | .xend | .xabort | .internallog | .xprepare _ => some pages

def redoEntry (s : TransactionTable × Pages C) (e : LogEntry) :
    Option (TransactionTable × Pages C) := do
  let tbl ← redoTable s.1 e
  let pages ← redoPages ops s.2 e
  some (tbl, pages)

def stasisRecoveryRedo (entries : List LogEntry) (s : TransactionTable × Pages C) :
    Option (TransactionTable × Pages C) :=
  entries.foldlM (redoEntry ops) s

/-- What redoing an entry means for the content of page `p`, if it touches it. -/
def LogEntry.effect (p : Int) (e : LogEntry) : Option (C → C) :=
  match e.payload with
  | .updatelog u =>
    if u.page = invalidPage then none else do
    let op ← ops u.funcID
    let redo ← ops op.redo
    if op.redo = operationNoop then none else
    match loadPageForOperation u.page with
    | none => if p ∈ redo.runMulti u then some (redo.run e.xid u) else none
    | some q => if p = q then some (redo.run e.xid u) else none
  | .clrlog ce =>
    if ce.LSN = -1 ∨ ce.update.page = invalidPage then none else do
    let op ← ops ce.update.funcID
    let undo ← ops op.undo
    match loadPageForOperation ce.update.page with
    | none => none
    | some q => if p = q then some (undo.run ce.xid ce.update) else none
  | .xcommit | .xend | .xabort | .internallog | .xprepare _ => none

/-- The entries applied to page `p` one after the other, whatever its LSN. -/
def replayPage (p : Int) (entries : List LogEntry) (c : C) : C :=
  entries.foldl (fun c e => match e.effect ops p with | none => c | some f => f c) c

/-- A page image that reflects exactly the entries at or below its LSN. -/
def Consistent (base : Int → C) (entries : List LogEntry) (p : Int) (page : Page C) : Prop :=
  page.content = replayPage ops p (entries.filter fun e => e.LSN ≤ page.LSN) (base p)

/-- The entry's operations are registered, and the pages that it names have a
page LSN: operations on LSN-free and segment pages are left out, and an
operation over several pages is undone by one that visits no page. -/
def Redoable (e : LogEntry) : Prop :=
  match e.payload with
  | .updatelog u =>
    u.page = invalidPage ∨
    u.page ≠ segmentPageid ∧ u.funcID ≠ operationSetLsnFree ∧
    u.funcID ≠ operationSetLsnFreeInverse ∧
    ∃ op redo, ops u.funcID = some op ∧ ops op.redo = some redo
  | .clrlog ce =>
    ce.LSN = -1 ∨ ce.update.page = invalidPage ∨
    ce.update.page ≠ segmentPageid ∧
    ∃ op undo, ops ce.update.funcID = some op ∧ ops op.undo = some undo ∧
      (ce.update.page = multiPageid → undo.runMulti ce.update = [])
  | .xcommit | .xend | .xabort | .internallog | .xprepare _ => True

end

section Page
open StampedReplay

def Page.cell (p : Page C) : Cell Int C := ⟨p.LSN, p.content⟩

def LogEntry.action (ops : OperationTable C) (p : Int) (e : LogEntry) : Action Int C :=
  ⟨e.LSN, e.effect ops p⟩

theorem replayPage_eq_replay (ops : OperationTable C) (p : Int) (entries : List LogEntry)
    (c : C) :
    replayPage ops p entries c = replay (entries.map (LogEntry.action ops p)) c := by
  simp only [replayPage, replay, foldl_map]
  rfl

theorem consistent_iff_reflects (ops : OperationTable C) (base : Int → C)
    (entries : List LogEntry) (p : Int) (page : Page C) :
    Consistent ops base entries p page ↔
      Reflects (base p) (entries.map (LogEntry.action ops p)) page.cell := by
  simp only [Consistent, Reflects, replayPage_eq_replay, filter_map]
  rfl

/-- Running an operation on page `q` under the page LSN is a guarded step of that
page and does nothing to the others. -/
theorem guarded_cell (op : OperationImpl C) (e : UpdateEntry) (lsn q : Int)
    (pages : Pages C) :
    ∃ pages', (if (pages q).LSN < lsn then
        some (Function.update pages q (op.runOn e lsn (pages q)))
      else some pages) = some pages' ∧
      ∀ p, (pages' p).cell =
        (StampedReplay.Action.mk lsn (if p = q then some (op.run e.xid e.update) else none)).redo
          (pages p).cell := by
  by_cases due : (pages q).LSN < lsn
  · simp only [due, if_true]
    refine ⟨_, rfl, fun p => ?_⟩
    by_cases same : p = q
    · subst same
      simp [Action.redo, Page.cell, due, runOn_of_lt op e due]
    · simp [Action.redo, same]
  · simp only [due, if_false]
    refine ⟨_, rfl, fun p => ?_⟩
    by_cases same : p = q
    · subst same
      simp [Action.redo, Page.cell, due]
    · simp [Action.redo, same]

theorem redoPages_cell (ops : OperationTable C) (pages : Pages C) (e : LogEntry)
    (redoable : Redoable ops e) :
    ∃ pages', redoPages ops pages e = some pages' ∧
      ∀ p, (pages' p).cell = (e.action ops p).redo (pages p).cell := by
  obtain ⟨lsn, prevLSN, xid, payload⟩ := e
  cases payload with
  | internallog | xcommit | xabort | xend | xprepare r =>
    exact ⟨pages, rfl, fun p => rfl⟩
  | updatelog u =>
    by_cases logical : u.page = invalidPage
    · refine ⟨pages, by simp [redoPages, logical], fun p => ?_⟩
      simp [action, effect, Action.redo, logical]
    simp only [Redoable, logical, false_or] at redoable
    obtain ⟨headered, free, freeInverse, op, redo, hop, hredo⟩ := redoable
    simp only [redoPages, stasisOperationRedo, action, effect, logical,
      hop, hredo, if_false, Option.bind_eq_bind, Option.bind_some, free, freeInverse,
      or_false]
    by_cases noop : op.redo = operationNoop
    · exact ⟨pages, by simp [noop], fun p => by simp [noop, Action.redo]⟩
    simp only [noop, if_false]
    cases loadPageForOperation u.page with
    | none =>
      refine ⟨_, rfl, fun p => ?_⟩
      rw [runPages_apply]
      by_cases visited : p ∈ redo.runMulti u
      · by_cases due : (pages p).LSN < lsn <;>
          simp [visited, due, Action.redo, Page.cell]
      · simp only [visited, false_and, if_false, Action.redo]
    | some q => exact guarded_cell redo ⟨lsn, prevLSN, xid, u⟩ lsn q pages
  | clrlog ce =>
    by_cases closing : ce.LSN = -1
    · refine ⟨pages, by simp [redoPages, closing], fun p => ?_⟩
      simp [action, effect, Action.redo, closing]
    by_cases logical : ce.update.page = invalidPage
    · refine ⟨pages, by simp [redoPages, closing, logical], fun p => ?_⟩
      simp [action, effect, Action.redo, logical]
    simp only [Redoable, closing, logical, false_or] at redoable
    obtain ⟨headered, op, undo, hop, hundo, multi⟩ := redoable
    simp only [redoPages, stasisOperationUndo, action, effect, closing,
      logical, hop, hundo, if_false, or_self, Option.bind_eq_bind, Option.bind_some]
    cases load : loadPageForOperation ce.update.page with
    | none =>
      have several : ce.update.page = multiPageid := by
        simp only [loadPageForOperation, headered, false_or] at load
        by_contra single
        simp [single] at load
      refine ⟨_, rfl, fun p => ?_⟩
      simp [OperationImpl.runPages, multi several, Action.redo]
    | some q => exact guarded_cell undo ce lsn q pages

theorem redoPages_run (ops : OperationTable C) (entries : List LogEntry) (pages : Pages C)
    (redoable : ∀ e ∈ entries, Redoable ops e) :
    ∃ pages', entries.foldlM (redoPages ops) pages = some pages' ∧
      ∀ p, (pages' p).cell = redo (entries.map (LogEntry.action ops p)) (pages p).cell := by
  induction entries generalizing pages with
  | nil => exact ⟨pages, rfl, fun p => rfl⟩
  | cons e entries ih =>
    obtain ⟨mid, step, cell⟩ := redoPages_cell ops pages e (redoable e mem_cons_self)
    obtain ⟨pages', run, cells⟩ := ih mid fun d hd => redoable d (mem_cons_of_mem e hd)
    refine ⟨pages', by simp [step, run], fun p => ?_⟩
    rw [cells p, cell p]
    rfl

end Page

theorem redoTable_reflects (reflects : TableReflects entries tbl)
    (kind : e.payload ≠ .internallog) (range : InRange e.xid)
    (prev : ∀ last, lastOf entries e.xid = some last → e.prevLSN ≤ last.LSN) :
    ∃ tbl', redoTable tbl e = some tbl' ∧ TableReflects (entries ++ [e]) tbl' := by
  obtain ⟨l, own, lsn, whenFree, roll⟩ := rollForward_reflects reflects range prev
  by_cases ends : e.payload.Ends
  · have forgotten : redoTable tbl e =
        some (tbl.set e.xid { l with xid := l.xidWhenFree }) := by
      cases payload : e.payload <;> simp_all [redoTable, forget, Payload.Ends]
    refine ⟨_, forgotten, tableReflects_concat reflects ⟨whenFree, ?_⟩⟩
    simpa [ends] using whenFree
  · have rolled : redoTable tbl e = some (tbl.set e.xid l) := by
      cases payload : e.payload <;> simp_all [redoTable, Payload.Ends]
    refine ⟨_, rolled, tableReflects_concat reflects ⟨whenFree, ?_⟩⟩
    simpa [ends] using ⟨own, lsn⟩

theorem redoTable_run (linked : Linked entries) :
    ∃ tbl, entries.foldlM redoTable init = some tbl ∧ TableReflects entries tbl := by
  induction linked with
  | nil => exact ⟨init, rfl, tableReflects_init⟩
  | internal entries e _ kind xid ih =>
    obtain ⟨tbl, run, reflects⟩ := ih
    refine ⟨tbl, by simp [foldlM_append, run, redoTable, kind], fun x hx => ?_⟩
    have ne : e.xid ≠ x := by
      rw [xid]
      rintro rfl
      exact absurd hx.1 (by decide)
    rw [lastOf_concat, if_neg ne]
    exact reflects x hx
  | concat entries e _ kind range prev ih =>
    obtain ⟨tbl, run, reflects⟩ := ih
    obtain ⟨tbl', step, reflects'⟩ := redoTable_reflects reflects kind range prev
    exact ⟨tbl', by simp [foldlM_append, run, step], reflects'⟩

theorem stasisRecoveryRedo_of_parts (ops : OperationTable C)
    (table : entries.foldlM redoTable tbl = some tbl')
    (store : entries.foldlM (redoPages ops) pages = some pages') :
    stasisRecoveryRedo ops entries (tbl, pages) = some (tbl', pages') := by
  induction entries generalizing tbl pages with
  | nil =>
    simp only [foldlM_nil, Option.pure_def, Option.some.injEq] at table store
    rw [table, store]
    rfl
  | cons e entries ih =>
    simp only [foldlM_cons, Option.bind_eq_bind, Option.bind_eq_some_iff] at table store
    obtain ⟨midTbl, stepTbl, table⟩ := table
    obtain ⟨mid, step, store⟩ := store
    have rest := ih table store
    simp only [stasisRecoveryRedo] at rest
    simp [stasisRecoveryRedo, redoEntry, stepTbl, step, rest]

theorem stasisRecoveryRedo_run (ops : OperationTable C) (linked : Linked entries)
    (redoable : ∀ e ∈ entries, Redoable ops e) (pages : Pages C) :
    ∃ tbl pages', stasisRecoveryRedo ops entries (init, pages) = some (tbl, pages') ∧
      TableReflects entries tbl ∧
      ∀ p, (pages' p).cell =
        StampedReplay.redo (entries.map (LogEntry.action ops p)) (pages p).cell := by
  obtain ⟨tbl, table, reflects⟩ := redoTable_run linked
  obtain ⟨pages', store, cells⟩ := redoPages_run ops entries pages redoable
  exact ⟨tbl, pages', stasisRecoveryRedo_of_parts ops table store, reflects, cells⟩

end Stasis
