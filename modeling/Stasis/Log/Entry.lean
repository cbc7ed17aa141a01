import Mathlib.Order.Basic

/-!
Log entries as the logger lays them out.

The raw entry carries its LSN, the LSN of the entry that its transaction will
undo next and the transaction id. A CLR holds a copy of the entry that it
compensates, with the LSN of that entry; the CLR that closes a logical undo
holds a scratch entry whose LSN is invalid.
-/
namespace Stasis

def invalidLsn : Int := -1
def invalidXid : Int := -1
def invalidPage : Int := -1
def segmentPageid : Int := -2
def multiPageid : Int := -3

def maxTransactions : Int := 1000

def operationNoop : Nat := 19
def operationSetLsnFree : Nat := 6
def operationSetLsnFreeInverse : Nat := 7

/-- The part of an UPDATELOG entry that names the operation. -/
structure UpdateLogEntry where
  funcID : Nat
  page : Int
  args : List UInt8
  deriving DecidableEq, Repr

/-- An entry of type UPDATELOG, as operations receive it and as CLRs carry it. -/
structure UpdateEntry where
  LSN : Int
  prevLSN : Int
  xid : Int
  update : UpdateLogEntry
  deriving DecidableEq, Repr

/-- The entry type, with what an entry of that type stores after the raw entry. -/
inductive Payload where
  | internallog
  | xcommit
  | xabort
  | xend
  | xprepare (recLSN : Int)
  | updatelog (update : UpdateLogEntry)
  | clrlog (compensated : UpdateEntry)
  deriving DecidableEq, Repr

structure LogEntry where
  LSN : Int
  prevLSN : Int
  xid : Int
  payload : Payload
  deriving DecidableEq, Repr

def sizeofRawLogEntry : Int := 24
def sizeofUpdateLogEntry : Int := 24
def sizeofLsn : Int := 8

def sizeofLogEntry : Payload → Int
  | .clrlog ce =>
    sizeofRawLogEntry +
      (sizeofRawLogEntry + sizeofUpdateLogEntry + ce.update.args.length)
  | .updatelog u => sizeofRawLogEntry + sizeofUpdateLogEntry + u.args.length
  | .xprepare _ => sizeofRawLogEntry + sizeofLsn
  | .internallog | .xcommit | .xabort | .xend => sizeofRawLogEntry

theorem sizeofLogEntry_pos (p : Payload) : 0 < sizeofLogEntry p := by
  cases p <;>
    simp only [sizeofLogEntry, sizeofRawLogEntry, sizeofUpdateLogEntry, sizeofLsn] <;>
    omega

namespace LogEntry

/-- The update entry that a log entry is, if it is one. -/
def toUpdate (e : LogEntry) : Option UpdateEntry :=
  match e.payload with
  | .updatelog u => some ⟨e.LSN, e.prevLSN, e.xid, u⟩
  | _ => none

def getCLRCompensated (e : LogEntry) : Option UpdateEntry :=
  match e.payload with
  | .clrlog ce => some ce
  | _ => none

/-- The recLSN of a prepare record. A transaction that prepares before it logs
anything else has none yet, so the record itself is its first entry. -/
def getPrepareRecLSN (e : LogEntry) (recLSN : Int) : Int :=
  if recLSN = -1 then e.LSN else recLSN

end LogEntry

end Stasis
