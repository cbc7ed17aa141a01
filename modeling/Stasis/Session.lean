import Stasis.Log.Chain
import Stasis.Transactional

/-!
What a transaction has to undo, told from its calls.

The session of a transaction keeps the entries that an abort would have to
visit, newest first: an update or a prepare adds its entry, and the end of a
nested top action replaces everything since its beginning by the logical undo
entry. The bookkeeping follows the nesting of the calls and never looks at a
prevLSN; that the prevLSN links lead through exactly these entries is a theorem.
-/
namespace Stasis
open TransactionTable Database Option
variable {C : Type}

structure Session where
  outstanding : List LogEntry
  opened : List (UpdateEntry × List LogEntry)

def Session.start : Session := ⟨[], []⟩

inductive Call where
  | update (u : UpdateLogEntry)
  | beginNta (op : Nat) (args : List UInt8)
  | endNta
  | prepare
  deriving DecidableEq, Repr

section
variable (ops : OperationTable C)

/-- One call of transaction `xid`. Ending a nested top action that was not begun is
not a call. -/
def call (xid : Int) (s : Database C) (g : Session) :
    Call → Option (Database C × Session)
  | .update u => do
      let s' ← tupdate ops s xid u
      let e := s.log.reserveEntry (s.tbl xid).prevLSN xid (.updatelog u)
      some (s', { g with outstanding := e :: g.outstanding })
  | .beginNta op args => do
      let handle ← tbeginNestedTopAction s xid op args
      some (s, { g with opened := (handle, g.outstanding) :: g.opened })
  | .endNta =>
    match g.opened with
    | [] => none
    | (handle, before) :: opened => do
        let s' ← tendNestedTopAction s xid handle
        let e := s.log.reserveEntry handle.prevLSN xid (.updatelog handle.update)
        some (s', ⟨e :: before, opened⟩)
  | .prepare => do
      let s' ← tprepare s xid
      let e := s.log.reserveEntry (s.tbl xid).prevLSN xid (.xprepare (s.tbl xid).recLSN)
      some (s', { g with outstanding := e :: g.outstanding })

/-- The operation of an entry has to be one that can be undone. -/
def Call.Registered : Call → Prop
  | .beginNta op _ => ops.Undoable op
  | .update u => ops.Undoable u.funcID
  | .endNta | .prepare => True

/-- An entry that a transaction can leave behind before its rollback begins. -/
def Running (xid : Int) (e : LogEntry) : Prop :=
  e.xid = xid ∧
  match e.payload with
  | .updatelog u => ops.Undoable u.funcID
  | .xprepare _ | .xabort => True
  | .internallog | .xcommit | .xend | .clrlog _ => False

/-- The table slot and the log agree with the session. -/
structure SessionInv (xid : Int) (s : Database C) (g : Session) :
    Prop where
  range : InRange xid
  active : (s.tbl xid).xid = xid
  backed : Backed s.log (s.tbl xid).prevLSN g.outstanding
  running : ∀ e ∈ g.outstanding, Running ops xid e
  opened : ∀ h ∈ g.opened, Backed s.log h.1.prevLSN h.2 ∧
    (∀ e ∈ h.2, Running ops xid e) ∧ h.1.update.page = invalidPage ∧
    ops.Undoable h.1.update.funcID

end

namespace SessionInv

theorem frame (inv : SessionInv ops xid s g) (grew : Grew s.log s'.log)
    (slot : s'.tbl xid = s.tbl xid) : SessionInv ops xid s' g := by
  refine ⟨inv.range, by rw [slot]; exact inv.active, ?_, inv.running, fun h hh => ?_⟩
  · rw [slot]
    exact grew.backed inv.backed
  · exact ⟨grew.backed (inv.opened h hh).1, (inv.opened h hh).2⟩

theorem logWrite (inv : SessionInv ops xid s g) {opened : List (UpdateEntry × List LogEntry)}
    (backed : Backed s.log prevLSN es) (running : ∀ e ∈ es, Running ops xid e)
    (own : Running ops xid (s.log.reserveEntry prevLSN xid p)) (sub : ∀ h ∈ opened, h ∈ g.opened) :
    SessionInv ops xid (s.logWrite xid prevLSN p)
      ⟨s.log.reserveEntry prevLSN xid p :: es, opened⟩ := by
  refine ⟨inv.range, by simpa using inv.active, ?_, ?_, fun h hh => ?_⟩
  · simpa using backed_concat backed xid p
  · intro e he
    cases he with
    | head => exact own
    | tail _ he => exact running e he
  · exact ⟨backed_writeEntry (inv.opened h (sub h hh)).1 prevLSN xid p,
      (inv.opened h (sub h hh)).2⟩

theorem pages (inv : SessionInv ops xid s g) (pages : Pages C) :
    SessionInv ops xid { s with pages := pages } g :=
  ⟨inv.range, inv.active, inv.backed, inv.running, inv.opened⟩

end SessionInv

variable {xid : Int} {ops : OperationTable C} {s s' : Database C}

theorem tupdate_eq_some (run : tupdate ops s xid u = some s') :
    u.page ≠ invalidPage ∧ (∃ op, ops u.funcID = some op) ∧
      ∃ pages, s' = { s.stasisLogWriteUpdate xid u with pages := pages } := by
  unfold tupdate at run
  split at run
  · exact absurd run (by simp)
  next logical =>
    simp only [bind_eq_bind, bind_eq_some_iff] at run
    obtain ⟨l, _, pages, hdo, result⟩ := run
    simp only [stasisOperationDo, bind_eq_bind, bind_eq_some_iff] at hdo
    obtain ⟨op, hop, _⟩ := hdo
    exact ⟨logical, ⟨op, hop⟩, pages, (some.inj result).symm⟩

/-- The ways in which a call can succeed. -/
inductive CallEffect (ops : OperationTable C) (xid : Int) (s : Database C) (g : Session) :
    Call → Database C → Session → Prop
  | update (u : UpdateLogEntry) (s' : Database C) (run : tupdate ops s xid u = some s') :
      CallEffect ops xid s g (.update u) s' { g with
        outstanding := s.log.reserveEntry (s.tbl xid).prevLSN xid (.updatelog u) ::
          g.outstanding }
  | begun (op : Nat) (args : List UInt8) :
      CallEffect ops xid s g (.beginNta op args) s { g with
        opened := (s.stasisLogBeginNta xid op args, g.outstanding) :: g.opened }
  | ended (handle : UpdateEntry) (before : List LogEntry)
      (opened : List (UpdateEntry × List LogEntry))
      (nested : g.opened = (handle, before) :: opened) :
      CallEffect ops xid s g .endNta (s.stasisLogEndNta xid handle)
        ⟨s.log.reserveEntry handle.prevLSN xid (.updatelog handle.update) :: before, opened⟩
  | prepared :
      CallEffect ops xid s g .prepare (s.stasisLogWritePrepare xid) { g with
        outstanding := s.log.reserveEntry (s.tbl xid).prevLSN xid
          (.xprepare (s.tbl xid).recLSN) :: g.outstanding }

theorem get_eq_some {tbl : TransactionTable} (slot : tbl.get xid = some l) :
    InRange xid ∧ (tbl xid).xid = xid ∧ tbl xid = l := by
  obtain ⟨⟨range, active⟩, same⟩ := get_eq_some_iff.mp slot
  exact ⟨range, active, same⟩

/-- A call succeeds only for a transaction that holds its slot, in one of the ways above. -/
theorem call_eq_some {g g' : Session} (run : call ops xid s g c = some (s', g')) :
    InRange xid ∧ (s.tbl xid).xid = xid ∧ CallEffect ops xid s g c s' g' := by
  cases c with
  | update u =>
    simp only [call, bind_eq_bind, bind_eq_some_iff] at run
    obtain ⟨s₁, update, result⟩ := run
    cases result
    have accepted := update
    unfold tupdate at accepted
    split at accepted
    · exact absurd accepted (by simp)
    · simp only [bind_eq_bind, bind_eq_some_iff] at accepted
      obtain ⟨l, slot, _⟩ := accepted
      obtain ⟨range, active, _⟩ := get_eq_some slot
      exact ⟨range, active, .update u _ update⟩
  | beginNta op args =>
    simp only [call, tbeginNestedTopAction, bind_eq_bind,
      bind_eq_some_iff] at run
    obtain ⟨handle, ⟨l, slot, begun⟩, result⟩ := run
    cases begun
    cases result
    obtain ⟨range, active, _⟩ := get_eq_some slot
    exact ⟨range, active, .begun op args⟩
  | endNta =>
    cases nested : g.opened with
    | nil => simp [call, nested] at run
    | cons top opened =>
      simp only [call, nested, tendNestedTopAction, bind_eq_bind,
        bind_eq_some_iff] at run
      obtain ⟨s₁, ⟨l, slot, ended⟩, result⟩ := run
      cases ended
      cases result
      obtain ⟨range, active, _⟩ := get_eq_some slot
      exact ⟨range, active, .ended top.1 top.2 opened nested⟩
  | prepare =>
    simp only [call, tprepare, bind_eq_bind, bind_eq_some_iff] at run
    obtain ⟨s₁, ⟨l, slot, prepared⟩, result⟩ := run
    cases prepared
    cases result
    obtain ⟨range, active, _⟩ := get_eq_some slot
    exact ⟨range, active, .prepared⟩

theorem sessionInv_call (inv : SessionInv ops xid s g) (registered : c.Registered ops)
    (effect : CallEffect ops xid s g c s' g') : SessionInv ops xid s' g' := by
  cases effect with
  | update u s' run =>
    obtain ⟨_, _, pages, rfl⟩ := tupdate_eq_some run
    exact (inv.logWrite inv.backed inv.running ⟨rfl, registered⟩ fun h hh => hh).pages pages
  | begun op args =>
    refine ⟨inv.range, inv.active, inv.backed, inv.running, fun h hh => ?_⟩
    cases hh with
    | head => exact ⟨inv.backed, inv.running, rfl, registered⟩
    | tail _ hh => exact inv.opened h hh
  | ended handle before opened nested =>
    obtain ⟨backed, running, _, hop⟩ := inv.opened (handle, before) (by simp [nested])
    exact inv.logWrite backed running ⟨rfl, hop⟩ fun h hh => by
      rw [nested]
      exact List.mem_cons_of_mem _ hh
  | prepared => exact inv.logWrite inv.backed inv.running ⟨rfl, trivial⟩ fun h hh => hh

end Stasis
