import Stasis.Log.Log

/-!
The transaction table.

A slot belongs to transaction `xid` when its `xid` field says so; a free slot
holds INVALID_XTABLE_XID, or RESERVED_XTABLE_XID when a thread keeps it for
reuse. Functions that assert return `none` where the assertion fails.
-/
namespace Stasis

def invalidXtableXid : Int := invalidXid
def pendingXtableXid : Int := -2
def reservedXtableXid : Int := -3

structure TransactionTableEntry where
  xid : Int
  prevLSN : Int
  recLSN : Int
  xidWhenFree : Int
  deriving DecidableEq, Repr

abbrev TransactionTable := Int → TransactionTableEntry

namespace TransactionTable

/-- The table after stasis_transaction_table_init. The LSNs of a free slot are
never read. -/
def init : TransactionTable := fun _ =>
  ⟨invalidXtableXid, invalidLsn, invalidLsn, invalidXtableXid⟩

def set (tbl : TransactionTable) (xid : Int) (l : TransactionTableEntry) :
    TransactionTable :=
  Function.update tbl xid l

@[simp] theorem set_self (tbl : TransactionTable) (xid : Int)
    (l : TransactionTableEntry) : tbl.set xid l xid = l := by
  simp [set]

variable {xid : Int} {tbl : TransactionTable}

@[simp] theorem set_of_ne (tbl : TransactionTable) (l : TransactionTableEntry) (h : x ≠ xid) :
    tbl.set xid l x = tbl x := by
  simp [set, h]

@[simp] theorem set_set (tbl : TransactionTable) (xid : Int)
    (l l' : TransactionTableEntry) : (tbl.set xid l).set xid l' = tbl.set xid l' := by
  simp [set]

def InRange (xid : Int) : Prop := 0 ≤ xid ∧ xid < maxTransactions

instance (xid : Int) : Decidable (InRange xid) :=
  inferInstanceAs (Decidable (_ ∧ _))

/-- stasis_transaction_table_is_active, without its range assertion. -/
def IsActive (tbl : TransactionTable) (xid : Int) : Prop :=
  0 ≤ xid ∧ (tbl xid).xid = xid

instance (tbl : TransactionTable) (xid : Int) : Decidable (tbl.IsActive xid) :=
  inferInstanceAs (Decidable (_ ∧ _))

section
variable (tbl : TransactionTable)

def get (xid : Int) : Option TransactionTableEntry :=
  if InRange xid ∧ (tbl xid).xid = xid then some (tbl xid) else none

def rollForward (xid lsn prevLSN : Int) : Option TransactionTable :=
  if InRange xid then
    let l := tbl xid
    if l.xid = xid then
      if prevLSN ≤ l.prevLSN then some (tbl.set xid { l with prevLSN := lsn }) else none
    else if l.xid = reservedXtableXid ∨ l.xid = invalidXtableXid then
      some (tbl.set xid { l with xid := xid, recLSN := lsn, prevLSN := lsn })
    else none
  else none

def rollForwardWithRecLSN (xid lsn prevLSN recLSN : Int) : Option TransactionTable :=
  if InRange xid ∧ (tbl xid).recLSN = recLSN then tbl.rollForward xid lsn prevLSN else none

def commit (xid : Int) : Option TransactionTable :=
  if InRange xid then
    some (tbl.set xid { tbl xid with xid := (tbl xid).xidWhenFree })
  else none

def forget (xid : Int) : Option TransactionTable :=
  if InRange xid then
    let l := tbl xid
    if l.xid = xid then some (tbl.set xid { l with xid := l.xidWhenFree })
    else if l.xid < 0 then some tbl
    else none
  else none

/-- The table update that every write to the log by a transaction performs. -/
def logged (xid lsn : Int) : TransactionTable :=
  let l := tbl xid
  tbl.set xid { l with
    recLSN := if l.prevLSN = invalidLsn then lsn else l.recLSN
    prevLSN := lsn }

end

theorem rollForward_active (lsn : Int) (range : InRange xid) (active : (tbl xid).xid = xid)
    (le : prevLSN ≤ (tbl xid).prevLSN) :
    tbl.rollForward xid lsn prevLSN =
      some (tbl.set xid { tbl xid with prevLSN := lsn }) := by
  simp only [rollForward, range, active, le, if_true]

@[simp] theorem get_eq_some_iff :
    tbl.get xid = some l ↔ (InRange xid ∧ (tbl xid).xid = xid) ∧ tbl xid = l := by
  simp [get]

end TransactionTable
end Stasis
