import Stasis.TransactionTable
import Stasis.Operations

/-!
The calls of a running transaction, and what they write to the log.

Every record that a transaction writes while it runs points back at the entry
that its table slot remembers, and the slot moves on to the new record. The end
of a nested top action instead points back at the entry that was the newest one
when the action began, so that a rollback steps over the action's updates and
meets the logical undo entry in their place. CLRs do not pass through the slot.
-/
namespace Stasis
open TransactionTable Option
variable {C : Type}

structure Database (C : Type) where
  log : Log
  tbl : TransactionTable
  pages : Pages C
  rollbackLSNs : List Int

namespace Database

section
variable (s : Database C)

def contents : Int → C := fun p => (s.pages p).content

/-- Write a record for `xid` and move its slot to the record. -/
def logWrite (xid prevLSN : Int) (payload : Payload) : Database C :=
  { s with
    log := s.log.writeEntry prevLSN xid payload
    tbl := s.tbl.logged xid s.log.nextAvailableLSN }

def stasisLogWriteCommon (xid : Int) (type : Payload) : Database C :=
  s.logWrite xid (s.tbl xid).prevLSN type

def stasisLogWritePrepare (xid : Int) : Database C :=
  s.logWrite xid (s.tbl xid).prevLSN (.xprepare (s.tbl xid).recLSN)

def stasisLogWriteUpdate (xid : Int) (u : UpdateLogEntry) : Database C :=
  s.logWrite xid (s.tbl xid).prevLSN (.updatelog u)

/-- The scratch entry that remembers where a nested top action began. -/
def stasisLogBeginNta (xid : Int) (op : Nat) (args : List UInt8) : UpdateEntry :=
  ⟨invalidLsn, (s.tbl xid).prevLSN, xid, ⟨op, invalidPage, args⟩⟩

def stasisLogEndNta (xid : Int) (e : UpdateEntry) : Database C :=
  s.logWrite xid e.prevLSN (.updatelog e.update)

def stasisLogWriteClr (old : UpdateEntry) : Database C :=
  { s with log := s.log.writeEntry old.prevLSN old.xid (.clrlog old) }

def stasisLogWriteDummyClr (xid prevLSN : Int) : Database C :=
  s.stasisLogWriteClr ⟨invalidLsn, prevLSN, xid, ⟨operationNoop, invalidPage, []⟩⟩

end

end Database

open Database

/-- Tbegin, with the free slot that the table hands out as an argument. -/
def tbegin (s : Database C) (xid : Int) : Option (Database C) :=
  if InRange xid ∧ ((s.tbl xid).xid = invalidXtableXid ∨ (s.tbl xid).xid = reservedXtableXid)
  then some { s with
    tbl := s.tbl.set xid ⟨xid, invalidLsn, invalidLsn, reservedXtableXid⟩ }
  else none

def tupdate (ops : OperationTable C) (s : Database C) (xid : Int) (u : UpdateLogEntry) :
    Option (Database C) := do
  if u.page = invalidPage then none else
  let l ← s.tbl.get xid
  let pages ← stasisOperationDo ops ⟨s.log.nextAvailableLSN, l.prevLSN, xid, u⟩
    (loadPageForOperation u.page) s.pages
  some { s.stasisLogWriteUpdate xid u with pages := pages }

section
variable (s : Database C) (xid : Int)

def tbeginNestedTopAction (op : Nat) (args : List UInt8) : Option UpdateEntry := do
  let _ ← s.tbl.get xid
  some (s.stasisLogBeginNta xid op args)

def tendNestedTopAction (handle : UpdateEntry) : Option (Database C) := do
  let _ ← s.tbl.get xid
  some (s.stasisLogEndNta xid handle)

def tprepare : Option (Database C) := do
  let _ ← s.tbl.get xid
  some (s.stasisLogWritePrepare xid)

def tcommit : Option (Database C) := do
  let l ← s.tbl.get xid
  let s := if l.prevLSN ≠ invalidLsn then s.stasisLogWriteCommon xid .xcommit else s
  let tbl ← s.tbl.commit xid
  some { s with tbl := tbl }

def tforget : Option (Database C) := do
  let _ ← s.tbl.get xid
  let s := s.stasisLogWriteCommon xid .xend
  let tbl ← s.tbl.forget xid
  some { s with tbl := tbl }

end

section Lemmas
variable (s : Database C) (xid prevLSN : Int) (payload : Payload)

@[simp] theorem logWrite_log :
    (s.logWrite xid prevLSN payload).log = s.log.writeEntry prevLSN xid payload := rfl

@[simp] theorem logWrite_tbl_prevLSN :
    ((s.logWrite xid prevLSN payload).tbl xid).prevLSN = s.log.nextAvailableLSN := by
  simp [logWrite, logged]

@[simp] theorem logWrite_tbl_xid :
    ((s.logWrite xid prevLSN payload).tbl xid).xid = (s.tbl xid).xid := by
  simp [logWrite, logged]

@[simp] theorem logWrite_tbl_xidWhenFree :
    ((s.logWrite xid prevLSN payload).tbl xid).xidWhenFree = (s.tbl xid).xidWhenFree := by
  simp [logWrite, logged]

@[simp] theorem logWrite_tbl_of_ne (ne : x ≠ xid) :
    (s.logWrite xid prevLSN payload).tbl x = s.tbl x := by
  simp [logWrite, logged, ne]

end Lemmas

theorem tforget_of_active (s : Database C) (range : InRange xid) (active : (s.tbl xid).xid = xid) :
    ∃ tbl, tforget s xid = some { s.stasisLogWriteCommon xid .xend with tbl := tbl } ∧
      (tbl xid).xid = (s.tbl xid).xidWhenFree ∧
      (tbl xid).xidWhenFree = (s.tbl xid).xidWhenFree ∧ ∀ x, x ≠ xid → tbl x = s.tbl x := by
  refine ⟨(s.stasisLogWriteCommon xid .xend).tbl.set xid
    { (s.stasisLogWriteCommon xid .xend).tbl xid with
      xid := ((s.stasisLogWriteCommon xid .xend).tbl xid).xidWhenFree }, ?_, ?_, ?_, ?_⟩
  · simp [tforget, TransactionTable.get, range, active, forget, stasisLogWriteCommon]
  · simp [stasisLogWriteCommon]
  · simp [stasisLogWriteCommon]
  · intro x ne
    simp [stasisLogWriteCommon, ne]

end Stasis
