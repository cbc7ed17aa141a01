import Stasis.Transactional

/-!
The undo pass, shared by recovery and Tabort.

The pass is a machine that writes at most one log entry per step, so that a
crash can hit it between any two of them. The outer loop takes the largest LSN
off the rollback list. The inner loop follows prevLSN for as long as it is
positive. An update of a page is compensated in one step, under the page's
latch: CLR, table, page. A logical entry is compensated by the updates that its
undo operation issues, one step each, and closed by a dummy CLR.
-/
namespace Stasis
open TransactionTable Database Option
variable {C : Type}

/-- Where the pass stands: at the head of the outer loop, at the head of the inner
loop with its variables, inside a logical undo with the updates still to be
issued, or behind the loops. -/
inductive UndoPoint where
  | outer
  | inner (prevOffset thisXid : Int) (reallyAborted prepared : Bool)
  | logical (e : UpdateEntry) (pending : List UpdateLogEntry) (reallyAborted : Bool)
  | finished
  deriving DecidableEq, Repr

def undoPhysical (ops : OperationTable C) (s : Database C) (e : UpdateEntry) :
    Option (Database C) := do
  let clrLsn := s.log.nextAvailableLSN
  let s := s.stasisLogWriteClr e
  let tbl ← s.tbl.rollForward e.xid e.LSN e.prevLSN
  let pages ← stasisOperationUndo ops e clrLsn (loadPageForOperation e.update.page) s.pages
  some { s with tbl := tbl, pages := pages }

/-- The body of the inner loop, for the entry that previousInTransaction returned. -/
def undoEntry (ops : OperationTable C) (s : Database C) (e : LogEntry)
    (reallyAborted : Bool) : Option (Database C × UndoPoint) :=
  match e.payload with
  | .updatelog u =>
    let ue : UpdateEntry := ⟨e.LSN, e.prevLSN, e.xid, u⟩
    if u.page = invalidPage then do
      let op ← ops u.funcID
      let undo ← ops op.undo
      some (s, .logical ue (undo.runLogical e.xid u s.contents) reallyAborted)
    else do
      let s ← undoPhysical ops s ue
      some (s, .inner e.prevLSN e.xid reallyAborted false)
  | .clrlog _ => some (s, .inner e.prevLSN e.xid reallyAborted false)
  | .xabort => some (s, .inner e.prevLSN e.xid true false)
  | .xcommit | .xend | .internallog => none
  | .xprepare recLSN =>
    if reallyAborted then some (s, .inner e.prevLSN e.xid true false)
    else do
      let tbl ← s.tbl.rollForwardWithRecLSN e.xid e.LSN e.prevLSN
        (e.getPrepareRecLSN recLSN)
      some ({ s with tbl := tbl }, .inner e.prevLSN e.xid false true)

/-- One step of stasis_recovery_undo. `none` is a failed assertion or an abort(). -/
def undoStep (ops : OperationTable C) :
    Database C × UndoPoint → Option (Database C × UndoPoint)
  | (s, .outer) =>
    match s.rollbackLSNs with
    | [] => some (s, .finished)
    | rollback :: rest =>
      some ({ s with rollbackLSNs := rest }, .inner rollback (-1) false false)
  | (s, .inner prevOffset thisXid reallyAborted prepared) =>
    if prepared then some (s, .outer)
    else if prevOffset > 0 then do
      let e ← s.log.readEntry prevOffset
      undoEntry ops s e reallyAborted
    else do
      let s ← tforget s thisXid
      some (s, .outer)
  | (s, .logical e [] reallyAborted) =>
    some (s.stasisLogWriteDummyClr e.xid e.prevLSN,
      .inner e.prevLSN e.xid reallyAborted false)
  | (s, .logical e (u :: pending) reallyAborted) => do
      let s ← tupdate ops s e.xid u
      some (s, .logical e pending reallyAborted)
  | (s, .finished) => some (s, .finished)

/-- undoTrans up to its call of stasis_recovery_undo. -/
def undoTrans (s : Database C) (transaction : TransactionTableEntry) :
    Option (Database C × UndoPoint) :=
  if s.rollbackLSNs = [] then
    some ({ s with
      rollbackLSNs := if transaction.prevLSN > 0 then [transaction.prevLSN] else [] }, .outer)
  else none

/-- Tabort up to its undo pass. A transaction that logged nothing is only forgotten. -/
def tabort (s : Database C) (xid : Int) : Option (Database C × UndoPoint) := do
  let t ← s.tbl.get xid
  if t.prevLSN ≠ invalidLsn then
    let s := s.stasisLogWriteCommon xid .xabort
    undoTrans s (s.tbl xid)
  else do
    let tbl ← s.tbl.forget xid
    some ({ s with tbl := tbl }, .finished)

section Steps
variable {s : Database C} (ra : Bool)

theorem undoStep_visit (pos : 0 < off) (read : s.log.readEntry off = some e) :
    undoStep ops (s, .inner off thisXid ra false) = undoEntry ops s e ra := by
  simp [undoStep, pos, read]

theorem undoPhysical_of_active {e : UpdateEntry} (hop : ops e.update.funcID = some op)
    (hundo : ops op.undo = some undo) (range : InRange e.xid) (active : (s.tbl e.xid).xid = e.xid)
    (le : e.prevLSN ≤ (s.tbl e.xid).prevLSN) : ∃ s', undoPhysical ops s e = some s' := by
  have undone : ∃ pages, stasisOperationUndo ops e s.log.nextAvailableLSN
      (loadPageForOperation e.update.page) s.pages = some pages := by
    simp only [stasisOperationUndo, hop, hundo, bind_eq_bind, bind_some]
    split
    · exact ⟨_, rfl⟩
    · split
      · exact ⟨_, rfl⟩
      · exact ⟨_, rfl⟩
  obtain ⟨pages, undone⟩ := undone
  have roll := rollForward_active e.LSN range active le
  simp [undoPhysical, stasisLogWriteClr, roll, undone]

theorem undoStep_issue (e : UpdateEntry) (pending : List UpdateLogEntry) (range : InRange e.xid)
    (active : (s.tbl e.xid).xid = e.xid) (physical : u.page ≠ invalidPage)
    (hop : ops u.funcID = some op) :
    ∃ pages, undoStep ops (s, .logical e (u :: pending) ra) =
        some ({ s.stasisLogWriteUpdate e.xid u with pages := pages },
          .logical e pending ra) := by
  have done : ∃ pages, stasisOperationDo ops
      ⟨s.log.nextAvailableLSN, (s.tbl e.xid).prevLSN, e.xid, u⟩
      (loadPageForOperation u.page) s.pages = some pages := by
    simp only [stasisOperationDo, hop, bind_eq_bind, bind_some]
    split
    · exact ⟨_, rfl⟩
    · exact ⟨_, rfl⟩
  obtain ⟨pages, done⟩ := done
  exact ⟨pages, by
    simp [undoStep, tupdate, physical, TransactionTable.get, range, active, done]⟩

end Steps

/-- What a visited entry that is neither undone nor ends the walk does to
reallyAborted. -/
inductive Skipped : Payload → Bool → Bool → Prop
  | clr (ce : UpdateEntry) (ra : Bool) : Skipped (.clrlog ce) ra ra
  | abort (ra : Bool) : Skipped .xabort ra true
  | prepare (recLSN : Int) : Skipped (.xprepare recLSN) true true

/-- Everything a successful step of the pass can do. -/
inductive PassStep (ops : OperationTable C) (s : Database C) :
    UndoPoint → Database C → UndoPoint → Prop
  | idle (none : s.rollbackLSNs = []) : PassStep ops s .outer s .finished
  | take (rollback : Int) (rest : List Int) (list : s.rollbackLSNs = rollback :: rest) :
      PassStep ops s .outer { s with rollbackLSNs := rest } (.inner rollback (-1) false false)
  | leave (off thisXid : Int) (ra : Bool) :
      PassStep ops s (.inner off thisXid ra true) s .outer
  | stop (off thisXid : Int) (ra : Bool) (s' : Database C) (stop : ¬ 0 < off)
      (forget : tforget s thisXid = some s') :
      PassStep ops s (.inner off thisXid ra false) s' .outer
  | skip (off thisXid : Int) (ra ra' : Bool) (e : LogEntry) (pos : 0 < off)
      (read : s.log.readEntry off = some e) (skipped : Skipped e.payload ra ra') :
      PassStep ops s (.inner off thisXid ra false) s (.inner e.prevLSN e.xid ra' false)
  | prepared (off thisXid recLSN : Int) (e : LogEntry) (tbl : TransactionTable)
      (pos : 0 < off) (read : s.log.readEntry off = some e)
      (payload : e.payload = .xprepare recLSN)
      (roll : s.tbl.rollForwardWithRecLSN e.xid e.LSN e.prevLSN
        (e.getPrepareRecLSN recLSN) = some tbl) :
      PassStep ops s (.inner off thisXid false false) { s with tbl := tbl }
        (.inner e.prevLSN e.xid false true)
  | undo (off thisXid : Int) (ra : Bool) (e : LogEntry) (u : UpdateLogEntry)
      (s' : Database C) (pos : 0 < off) (read : s.log.readEntry off = some e)
      (payload : e.payload = .updatelog u) (physical : u.page ≠ invalidPage)
      (undo : undoPhysical ops s ⟨e.LSN, e.prevLSN, e.xid, u⟩ = some s') :
      PassStep ops s (.inner off thisXid ra false) s' (.inner e.prevLSN e.xid ra false)
  | enter (off thisXid : Int) (ra : Bool) (e : LogEntry) (u : UpdateLogEntry)
      (op undo : OperationImpl C) (pos : 0 < off) (read : s.log.readEntry off = some e)
      (payload : e.payload = .updatelog u) (logical : u.page = invalidPage)
      (hop : ops u.funcID = some op) (hundo : ops op.undo = some undo) :
      PassStep ops s (.inner off thisXid ra false) s
        (.logical ⟨e.LSN, e.prevLSN, e.xid, u⟩ (undo.runLogical e.xid u s.contents) ra)
  | issue (e : UpdateEntry) (u : UpdateLogEntry) (pending : List UpdateLogEntry) (ra : Bool)
      (s' : Database C) (issue : tupdate ops s e.xid u = some s') :
      PassStep ops s (.logical e (u :: pending) ra) s' (.logical e pending ra)
  | close (e : UpdateEntry) (ra : Bool) :
      PassStep ops s (.logical e [] ra) (s.stasisLogWriteDummyClr e.xid e.prevLSN)
        (.inner e.prevLSN e.xid ra false)
  | finished : PassStep ops s .finished s .finished

section Inversion
variable {s' : Database C}

theorem undoPhysical_eq_some (undo : undoPhysical ops s e = some s') :
    ∃ tbl pages, s' = { s.stasisLogWriteClr e with tbl := tbl, pages := pages } ∧
      s.tbl.rollForward e.xid e.LSN e.prevLSN = some tbl ∧
      stasisOperationUndo ops e s.log.nextAvailableLSN (loadPageForOperation e.update.page)
        s.pages = some pages := by
  simp only [undoPhysical, bind_eq_bind, bind_eq_some_iff] at undo
  obtain ⟨tbl, roll, pages, run, result⟩ := undo
  exact ⟨tbl, pages, (some.inj result).symm, roll, run⟩

theorem passStep_visit (pos : 0 < off) (read : s.log.readEntry off = some e)
    (visit : undoEntry ops s e ra = some (s', pt')) :
    PassStep ops s (.inner off thisXid ra false) s' pt' := by
  unfold undoEntry at visit
  cases payload : e.payload with
  | updatelog u =>
    simp only [payload] at visit
    split at visit
    · rename_i logical
      simp only [bind_eq_bind, bind_eq_some_iff, some.injEq,
        Prod.mk.injEq] at visit
      obtain ⟨op, hop, undo, hundo, rfl, rfl⟩ := visit
      exact .enter off thisXid ra e u op undo pos read payload logical hop hundo
    · rename_i physical
      simp only [bind_eq_bind, bind_eq_some_iff, some.injEq,
        Prod.mk.injEq] at visit
      obtain ⟨s'', undo, rfl, rfl⟩ := visit
      exact .undo off thisXid ra e u s'' pos read payload physical undo
  | clrlog ce =>
    simp only [payload, some.injEq, Prod.mk.injEq] at visit
    obtain ⟨rfl, rfl⟩ := visit
    exact .skip off thisXid ra ra e pos read (payload ▸ .clr ce ra)
  | xabort =>
    simp only [payload, some.injEq, Prod.mk.injEq] at visit
    obtain ⟨rfl, rfl⟩ := visit
    exact .skip off thisXid ra true e pos read (payload ▸ .abort ra)
  | xprepare recLSN =>
    simp only [payload] at visit
    cases ra with
    | true =>
      simp only [if_true, some.injEq, Prod.mk.injEq] at visit
      obtain ⟨rfl, rfl⟩ := visit
      exact .skip off thisXid true true e pos read (payload ▸ .prepare recLSN)
    | false =>
      simp only [Bool.false_eq_true, if_false, bind_eq_bind,
        bind_eq_some_iff, some.injEq, Prod.mk.injEq] at visit
      obtain ⟨tbl, roll, rfl, rfl⟩ := visit
      exact .prepared off thisXid recLSN e tbl pos read payload roll
  | xcommit | xend | internallog => simp [payload] at visit

theorem undoStep_eq_some (step : undoStep ops (s, pt) = some (s', pt')) :
    PassStep ops s pt s' pt' := by
  cases pt with
  | outer =>
    cases list : s.rollbackLSNs with
    | nil =>
      simp only [undoStep, list, some.injEq, Prod.mk.injEq] at step
      obtain ⟨rfl, rfl⟩ := step
      exact .idle list
    | cons rollback rest =>
      simp only [undoStep, list, some.injEq, Prod.mk.injEq] at step
      obtain ⟨rfl, rfl⟩ := step
      exact .take rollback rest list
  | inner off thisXid ra prepared =>
    cases prepared with
    | true =>
      simp only [undoStep, if_true, some.injEq, Prod.mk.injEq] at step
      obtain ⟨rfl, rfl⟩ := step
      exact .leave off thisXid ra
    | false =>
      simp only [undoStep, Bool.false_eq_true, if_false] at step
      split at step
      · rename_i pos
        simp only [bind_eq_bind, bind_eq_some_iff] at step
        obtain ⟨e, read, visit⟩ := step
        exact passStep_visit pos read visit
      · rename_i stop
        simp only [bind_eq_bind, bind_eq_some_iff, some.injEq,
          Prod.mk.injEq] at step
        obtain ⟨s'', forget, rfl, rfl⟩ := step
        exact .stop off thisXid ra s'' stop forget
  | logical e pending ra =>
    cases pending with
    | nil =>
      simp only [undoStep, some.injEq, Prod.mk.injEq] at step
      obtain ⟨rfl, rfl⟩ := step
      exact .close e ra
    | cons u pending =>
      simp only [undoStep, bind_eq_bind, bind_eq_some_iff, some.injEq,
        Prod.mk.injEq] at step
      obtain ⟨s'', issue, rfl, rfl⟩ := step
      exact .issue e u pending ra s'' issue
  | finished =>
    simp only [undoStep, some.injEq, Prod.mk.injEq] at step
    obtain ⟨rfl, rfl⟩ := step
    exact .finished

end Inversion
end Stasis
