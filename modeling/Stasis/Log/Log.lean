import Mathlib.Data.Int.Order.Basic
import Mathlib.Data.List.Pairwise
import Stasis.Log.Entry

/-!
The log as its three implementations present it to the rest of the system.

Each implementation assigns the next available LSN when an entry is reserved.
The in-memory log counts entries from zero, the safe-writes log uses offsets in
the log file and the file pool uses offsets in its ring buffer.
-/
namespace Stasis
open List

inductive LogType where
  | logToFile
  | logToMemory
  | logToDir
  deriving DecidableEq, Repr

namespace LogType

/-- The LSN of the first entry that an empty log hands out. -/
def firstLSN : LogType → Int
  | .logToFile => sizeofLsn
  | .logToMemory => 0
  | .logToDir => 1

def nextEntry (t : LogType) (lsn : Int) (p : Payload) : Int :=
  match t with
  | .logToFile | .logToDir => lsn + sizeofLogEntry p + sizeofLsn
  | .logToMemory => lsn + 1

theorem lt_nextEntry (t : LogType) (lsn : Int) (p : Payload) : lsn < t.nextEntry lsn p := by
  have size := sizeofLogEntry_pos p
  cases t <;> simp only [nextEntry, sizeofLsn] <;> omega

theorem firstLSN_nonneg (t : LogType) : 0 ≤ t.firstLSN := by
  cases t <;> decide

end LogType

theorem eq_of_LSN_eq {entries : List LogEntry}
    (ordered : entries.Pairwise fun a b => a.LSN < b.LSN) (ha : a ∈ entries) (hb : b ∈ entries)
    (h : a.LSN = b.LSN) : a = b := by
  by_contra ne
  have apart : entries.Pairwise fun a b => a.LSN ≠ b.LSN :=
    ordered.imp fun lt => ne_of_lt lt
  have symm : Std.Symm fun a b : LogEntry => a.LSN ≠ b.LSN := ⟨fun _ _ h => h.symm⟩
  exact apart.forall ha hb ne h

/-- The entries that have been written, oldest first, in the order of their LSNs. -/
structure Log where
  logType : LogType
  entries : List LogEntry
  nextAvailableLSN : Int
  ordered : entries.Pairwise fun a b => a.LSN < b.LSN
  below : ∀ e ∈ entries, e.LSN < nextAvailableLSN
  start : ∀ e ∈ entries, logType.firstLSN ≤ e.LSN
  next : logType.firstLSN ≤ nextAvailableLSN

namespace Log

def empty (t : LogType) : Log where
  logType := t
  entries := []
  nextAvailableLSN := t.firstLSN
  ordered := List.Pairwise.nil
  below := by simp
  start := by simp
  next := le_rfl

section
variable (log : Log) (prevLSN : Int) (xid : Int) (p : Payload)

/-- The entry that the log writes next. -/
def reserveEntry : LogEntry :=
  ⟨log.nextAvailableLSN, prevLSN, xid, p⟩

def writeEntry : Log where
  logType := log.logType
  entries := log.entries ++ [log.reserveEntry prevLSN xid p]
  nextAvailableLSN := log.logType.nextEntry log.nextAvailableLSN p
  ordered := by
    refine pairwise_append.mpr ⟨log.ordered, pairwise_singleton _ _, ?_⟩
    intro a ha b hb
    obtain rfl := mem_singleton.mp hb
    exact log.below a ha
  below := by
    have grows := log.logType.lt_nextEntry log.nextAvailableLSN p
    intro e he
    rcases mem_append.mp he with he | he
    · exact (log.below e he).trans grows
    · obtain rfl := mem_singleton.mp he
      exact grows
  start := by
    intro e he
    rcases mem_append.mp he with he | he
    · exact log.start e he
    · obtain rfl := mem_singleton.mp he
      exact log.next
  next := log.next.trans (log.logType.lt_nextEntry log.nextAvailableLSN p).le

end

def readEntry (log : Log) (lsn : Int) : Option LogEntry :=
  log.entries.find? fun e => e.LSN = lsn

section
variable (log : Log) (prevLSN : Int) (xid : Int) (p : Payload)

@[simp] theorem reserveEntry_LSN :
    (log.reserveEntry prevLSN xid p).LSN = log.nextAvailableLSN := rfl

@[simp] theorem reserveEntry_prevLSN :
    (log.reserveEntry prevLSN xid p).prevLSN = prevLSN := rfl

@[simp] theorem reserveEntry_xid : (log.reserveEntry prevLSN xid p).xid = xid := rfl

@[simp] theorem reserveEntry_payload :
    (log.reserveEntry prevLSN xid p).payload = p := rfl

@[simp] theorem writeEntry_entries :
    (log.writeEntry prevLSN xid p).entries =
      log.entries ++ [log.reserveEntry prevLSN xid p] := rfl

theorem nextAvailableLSN_lt_writeEntry :
    log.nextAvailableLSN < (log.writeEntry prevLSN xid p).nextAvailableLSN :=
  log.logType.lt_nextEntry log.nextAvailableLSN p

end

theorem nextAvailableLSN_nonneg (log : Log) : 0 ≤ log.nextAvailableLSN :=
  log.logType.firstLSN_nonneg.trans log.next

theorem LSN_nonneg (log : Log) (he : e ∈ log.entries) : 0 ≤ e.LSN :=
  log.logType.firstLSN_nonneg.trans (log.start e he)

theorem entry_eq_of_LSN_eq (log : Log) {a b : LogEntry} (ha : a ∈ log.entries)
    (hb : b ∈ log.entries) (h : a.LSN = b.LSN) : a = b :=
  eq_of_LSN_eq log.ordered ha hb h

theorem readEntry_of_mem (log : Log) (he : e ∈ log.entries) : log.readEntry e.LSN = some e := by
  cases found : log.readEntry e.LSN with
  | none =>
    have absent := find?_eq_none.mp found e he
    simp at absent
  | some a =>
    have hit : a.LSN = e.LSN := by simpa using find?_some found
    rw [log.entry_eq_of_LSN_eq (mem_of_find?_eq_some found) he hit]

theorem readEntry_eq_some_iff (log : Log) :
    log.readEntry lsn = some e ↔ e ∈ log.entries ∧ e.LSN = lsn := by
  constructor
  · intro found
    exact ⟨mem_of_find?_eq_some found, by simpa using find?_some found⟩
  · rintro ⟨he, rfl⟩
    exact log.readEntry_of_mem he

end Log
end Stasis
