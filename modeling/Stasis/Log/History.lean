import Stasis.TransactionTable

/-!
The entries of one transaction in a log.

Recovery finds out about transactions from the log alone: the last entry of a
transaction says whether it ended, and every entry points back at an entry of
the same transaction that is no younger than the one before it.
-/
namespace Stasis
open TransactionTable

def lastOf (entries : List LogEntry) (xid : Int) : Option LogEntry :=
  (entries.filter fun e => e.xid = xid).getLast?

@[simp] theorem lastOf_nil (xid : Int) : lastOf [] xid = none := rfl

@[simp] theorem lastOf_concat (entries : List LogEntry) (e : LogEntry) (xid : Int) :
    lastOf (entries ++ [e]) xid = if e.xid = xid then some e else lastOf entries xid := by
  by_cases own : e.xid = xid <;> simp [lastOf, List.filter_append, own]

variable {entries : List LogEntry} {e : LogEntry}

theorem mem_of_lastOf (last : lastOf entries xid = some e) : e ∈ entries ∧ e.xid = xid := by
  have mem := List.mem_of_getLast? last
  simpa using List.mem_filter.mp mem

def Payload.Ends : Payload → Prop
  | .xcommit | .xend => True
  | .internallog | .xabort | .xprepare _ | .updatelog _ | .clrlog _ => False

instance (p : Payload) : Decidable p.Ends := by
  cases p <;> unfold Payload.Ends <;> infer_instance

/-- A log that transactions in the table's range wrote, entry by entry. -/
inductive Linked : List LogEntry → Prop
  | nil : Linked []
  | internal (entries : List LogEntry) (e : LogEntry) (linked : Linked entries)
      (kind : e.payload = .internallog) (xid : e.xid = invalidXid) :
      Linked (entries ++ [e])
  | concat (entries : List LogEntry) (e : LogEntry) (linked : Linked entries)
      (kind : e.payload ≠ .internallog) (range : InRange e.xid)
      (prev : ∀ last, lastOf entries e.xid = some last → e.prevLSN ≤ last.LSN) :
      Linked (entries ++ [e])

/-- What the last entry of a transaction says about its slot: a transaction that
the entry does not end holds the slot and points at the entry. -/
def SlotReflects (last : Option LogEntry) (xid : Int) (l : TransactionTableEntry) : Prop :=
  l.xidWhenFree = invalidXtableXid ∧
  match last with
  | none => l.xid = invalidXtableXid
  | some e =>
    if e.payload.Ends then l.xid = invalidXtableXid else l.xid = xid ∧ l.prevLSN = e.LSN

def TableReflects (entries : List LogEntry) (tbl : TransactionTable) : Prop :=
  ∀ xid, InRange xid → SlotReflects (lastOf entries xid) xid (tbl xid)

theorem tableReflects_init : TableReflects [] init := by
  intro xid _
  exact ⟨rfl, rfl⟩

theorem tableReflects_concat (reflects : TableReflects entries tbl)
    (slot : SlotReflects (some e) e.xid l) : TableReflects (entries ++ [e]) (tbl.set e.xid l) := by
  intro x hx
  by_cases same : x = e.xid
  · subst same
    simpa using slot
  · rw [set_of_ne tbl l same, lastOf_concat, if_neg (Ne.symm same)]
    exact reflects x hx

theorem rollForward_reflects (reflects : TableReflects entries tbl) (range : InRange e.xid)
    (prev : ∀ last, lastOf entries e.xid = some last → e.prevLSN ≤ last.LSN) :
    ∃ l : TransactionTableEntry, l.xid = e.xid ∧ l.prevLSN = e.LSN ∧
      l.xidWhenFree = invalidXtableXid ∧
      tbl.rollForward e.xid e.LSN e.prevLSN = some (tbl.set e.xid l) := by
  obtain ⟨whenFree, slot⟩ := reflects e.xid range
  have free : (tbl e.xid).xid = invalidXtableXid → ∃ l : TransactionTableEntry,
      l.xid = e.xid ∧ l.prevLSN = e.LSN ∧ l.xidWhenFree = invalidXtableXid ∧
      tbl.rollForward e.xid e.LSN e.prevLSN = some (tbl.set e.xid l) := by
    intro free
    have ne : invalidXtableXid ≠ e.xid := fun same => absurd (same ▸ range.1) (by decide)
    refine ⟨{ tbl e.xid with xid := e.xid, recLSN := e.LSN, prevLSN := e.LSN }, rfl, rfl, whenFree, ?_⟩
    simp only [rollForward, range, free, ne, or_true, if_true, if_false]
  cases last : lastOf entries e.xid with
  | none =>
    rw [last] at slot
    exact free slot
  | some d =>
    rw [last] at slot
    by_cases ends : d.payload.Ends
    · simp only [ends, if_true] at slot
      exact free slot
    · simp only [ends, if_false] at slot
      have le : e.prevLSN ≤ (tbl e.xid).prevLSN := by
        rw [slot.2]
        exact prev d last
      exact ⟨{ tbl e.xid with prevLSN := e.LSN }, slot.1, rfl, whenFree,
        rollForward_active _ range slot.1 le⟩

end Stasis
