import Mathlib.Data.Int.Order.Basic
import Stasis.Log.Entry

/-!
Operations and the pages they change.

A page is its LSN and its content, of an arbitrary type. An operation is an
entry of the operation table: the operations that redo and undo it, and what
`run` does with the transaction id and the arguments of an entry, the only parts
of it that operations read. Run on one page it rewrites the content; run without
a page it visits the pages that its arguments name, or, as the undo of a nested
top action, issues a list of updates. An unregistered operation fails the
assertions and gives `none`.
-/
namespace Stasis
open Function

@[ext] structure Page (C : Type) where
  LSN : Int
  content : C

abbrev Pages (C : Type) := Int → Page C

structure OperationImpl (C : Type) where
  redo : Nat
  undo : Nat
  run : Int → UpdateLogEntry → C → C
  runMulti : UpdateLogEntry → List Int
  runLogical : Int → UpdateLogEntry → (Int → C) → List UpdateLogEntry

abbrev OperationTable (C : Type) := Nat → Option (OperationImpl C)

variable {C : Type}

def stasisPageLsnWrite (p : Page C) (lsn : Int) : Page C :=
  if p.LSN < lsn then { p with LSN := lsn } else p

/-- Run an operation on a page and write the entry's LSN to it. -/
def OperationImpl.runOn (op : OperationImpl C) (e : UpdateEntry) (lsn : Int)
    (p : Page C) : Page C :=
  stasisPageLsnWrite { p with content := op.run e.xid e.update p.content } lsn

/-- stasis_operation_multi_should_apply, for page files without segments. -/
def stasisOperationMultiShouldApply (e : UpdateEntry) (p : Page C) : Prop :=
  p.LSN < e.LSN

instance (e : UpdateEntry) (p : Page C) :
    Decidable (stasisOperationMultiShouldApply e p) :=
  inferInstanceAs (Decidable (_ < _))

section
variable (op : OperationImpl C) (e : UpdateEntry) (pages : Pages C)

def OperationImpl.runMultiOn (p : Int) : Pages C :=
  if stasisOperationMultiShouldApply e (pages p) then
    update pages p (op.runOn e e.LSN (pages p))
  else pages

/-- Run without a page, over the pages that the entry's arguments name. -/
def OperationImpl.runPages : Pages C :=
  (op.runMulti e.update).foldl (op.runMultiOn e) pages

end

/-- The page that an operation is handed. Operations over several pages get none. -/
def loadPageForOperation (page : Int) : Option Int :=
  if page = segmentPageid ∨ page = multiPageid then none else some page

section
variable (ops : OperationTable C) (e : UpdateEntry)

def stasisOperationDo (p : Option Int) (pages : Pages C) : Option (Pages C) := do
  let op ← ops e.update.funcID
  match p with
  | none => some (op.runPages e pages)
  | some p => some (update pages p (op.runOn e e.LSN (pages p)))

def stasisOperationRedo (p : Option Int) (pages : Pages C) : Option (Pages C) := do
  if e.update.page = invalidPage then none else
  let op ← ops e.update.funcID
  let redo ← ops op.redo
  if op.redo = operationNoop then some pages else
  match p with
  | none => some (redo.runPages e pages)
  | some p =>
    if (pages p).LSN < e.LSN ∨ e.update.funcID = operationSetLsnFree ∨
        e.update.funcID = operationSetLsnFreeInverse then
      some (update pages p (redo.runOn e e.LSN (pages p)))
    else some pages

/-- The undo of an entry that is not logical. The logical ones log updates of
their own and belong to the undo pass. -/
def stasisOperationUndo (effectiveLsn : Int) (p : Option Int) (pages : Pages C) :
    Option (Pages C) := do
  let op ← ops e.update.funcID
  let undo ← ops op.undo
  match p with
  | none => some (undo.runPages e pages)
  | some p =>
    if (pages p).LSN < effectiveLsn then
      some (update pages p (undo.runOn e effectiveLsn (pages p)))
    else some pages

end

theorem runOn_of_lt (op : OperationImpl C) (e : UpdateEntry) (h : p.LSN < lsn) :
    op.runOn e lsn p = ⟨lsn, op.run e.xid e.update p.content⟩ := by
  simp only [OperationImpl.runOn, stasisPageLsnWrite, h, if_true]

theorem runPages_apply (op : OperationImpl C) (e : UpdateEntry) (pages : Pages C) (p : Int) :
    op.runPages e pages p =
      if p ∈ op.runMulti e.update ∧ (pages p).LSN < e.LSN then
        ⟨e.LSN, op.run e.xid e.update (pages p).content⟩
      else pages p := by
  suffices H : ∀ (l : List Int) (pages : Pages C), l.foldl (op.runMultiOn e) pages p =
      if p ∈ l ∧ (pages p).LSN < e.LSN then
        ⟨e.LSN, op.run e.xid e.update (pages p).content⟩
      else pages p from H _ pages
  intro l
  induction l with
  | nil => intro pages; simp
  | cons q l ih =>
    intro pages
    rw [List.foldl_cons, ih]
    by_cases due : (pages q).LSN < e.LSN
    · have step : op.runMultiOn e pages q =
          update pages q ⟨e.LSN, op.run e.xid e.update (pages q).content⟩ := by
        simp only [OperationImpl.runMultiOn, stasisOperationMultiShouldApply, due, if_true,
          runOn_of_lt op e due]
      rw [step]
      by_cases same : p = q
      · subst same
        simp [due]
      · simp [same]
    · have step : op.runMultiOn e pages q = pages := by
        simp only [OperationImpl.runMultiOn, stasisOperationMultiShouldApply, due, if_false]
      rw [step]
      by_cases same : p = q
      · subst same
        simp [due]
      · simp [same]

/-- The operation is registered, and so is the one that undoes it. The inverses of the
region operations, which only run as undos, have none. -/
def OperationTable.Undoable (ops : OperationTable C) (f : Nat) : Prop :=
  ∃ op undo, ops f = some op ∧ ops op.undo = some undo

/-- Logical undos issue updates of pages that can be undone, and open no nested top
actions of their own. -/
def OperationTable.Closed (ops : OperationTable C) : Prop :=
  ∀ f op x u c, ops f = some op → ∀ v ∈ op.runLogical x u c,
    v.page ≠ invalidPage ∧ ops.Undoable v.funcID

end Stasis
