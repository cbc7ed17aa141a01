import Stasis.Operations.Counter
import Stasis.Recovery.Redo

/-!
Redo repeats history.

Whatever pages had been flushed before a crash, and whatever pages interrupted
redo passes flush afterwards, a completed pass leaves every page with the
content of all the entries that touch it, applied in the order of the log.
-/
namespace Stasis
open TransactionTable StampedReplay List
variable {C : Type}

theorem Linked.of_append (linked : Linked (entries ++ rest)) : Linked entries := by
  induction rest using List.reverseRecOn with
  | nil => simpa using linked
  | append_singleton rest e ih =>
    apply ih
    generalize whole : entries ++ (rest ++ [e]) = all at linked
    rw [← append_assoc] at whole
    cases linked with
    | nil => simp at whole
    | internal before last linked _ _ =>
      rw [(append_inj_left' whole rfl)]
      exact linked
    | concat before last linked _ _ _ =>
      rw [(append_inj_left' whole rfl)]
      exact linked

theorem action_ordered (ops : OperationTable C) (p : Int) {entries : List LogEntry}
    (ordered : entries.Pairwise fun a b => a.LSN < b.LSN) :
    Ordered (entries.map (LogEntry.action ops p)) := by
  apply pairwise_map.mpr
  exact ordered

section
variable (ops : OperationTable C) (base : Int → C)
  (ordered : entries.Pairwise fun a b => a.LSN < b.LSN) (linked : Linked entries)
  (redoable : ∀ e ∈ entries, Redoable ops e)
include ordered linked redoable

end

/-- An update and its CLR. -/
def undone (u : UpdateLogEntry) : Log :=
  ((Log.empty .logToFile).writeEntry (-1) 0 (.updatelog u)).writeEntry (-1) 0 (.clrlog ⟨8, -1, 0, u⟩)

end Stasis
