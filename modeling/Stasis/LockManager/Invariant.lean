import Stasis.LockManager
import Stasis.Library.Tally
import Stasis.Library.Fallible
import Stasis.Library.Updates

/-!
What the counters of the locks say.

Each counter is a tally over the transactions: of the locks that are recorded for them or that
they have still to release, and of the requests that wait. A step is about one transaction and
one object, and changes what the transaction contributes as it changes the counter.
-/
namespace Stasis.LockManager
open Tally Fallible Function Updates XidLocks

section Tables
variable {Obj : Type} [DecidableEq Obj] {locks : XidLocks Obj} {obj : Obj}

namespace XidLocks

theorem level_cons (l : Obj × Level) :
    level (l :: locks) obj = if l.1 = obj then some l.2 else locks.level obj := by
  rw [level, List.find?_cons]
  split
  · next same => rw [if_pos (of_decide_eq_true same)]; rfl
  · next ne => rw [if_neg (of_decide_eq_false ne)]; rfl

theorem level_remove :
    (locks.remove obj).level other = if other = obj then none else locks.level other := by
  rw [level, remove, List.find?_filter]
  split
  · next same =>
    rw [List.find?_eq_none.mpr (by simp [same])]
    rfl
  · next ne =>
    have kept : ∀ l : Obj × Level, l.1 ≠ obj ∧ l.1 = other ↔ l.1 = other :=
      fun l => and_iff_right_of_imp fun same eq => ne (same.symm.trans eq)
    simp [level, kept]

theorem level_insert (free : locks.level obj = none) :
    (locks.insert obj lv).level other =
      if other = obj then some lv else locks.level other := by
  have new : locks.insert obj lv = (obj, lv) :: locks := by
    rw [insert, free]
    rfl
  rw [new, level_cons]
  by_cases same : other = obj
  · rw [if_pos same.symm, if_pos same]
  · rw [if_neg (Ne.symm same), if_neg same]

end XidLocks

/-- The level of a lock that is no longer recorded and not yet released. -/
def Call.pending (obj : Obj) : Call Obj → Option Level
  | .decrement o level => if o = obj then some level else none
  | .commit _ left => left.level obj
  | _ => none

def one (p : Prop) [Decidable p] : Int := if p then 1 else 0

section
variable (obj : Obj)

/-- What a transaction contributes to the counters of an object. -/
def Local.readers (l : Local Obj) : Int :=
  one ((l.recorded obj).isSome) + one ((l.call.pending obj).isSome)

def Local.writers (l : Local Obj) : Int :=
  one (l.recorded obj = some .write) + one (l.call.pending obj = some .write)

/-- A request for writing that waits for the object. -/
def Call.waitsToWrite : Call Obj → Bool
  | .writeWait o _ => o = obj
  | _ => false

/-- A request that waits for the object. -/
def Call.waitsFor : Call Obj → Bool
  | .readWait o => o = obj
  | .writeWait o _ => o = obj
  | _ => false

def Local.waiting (l : Local Obj) : Int := one (l.call.waitsToWrite obj)

def Local.active (l : Local Obj) : Int := one (l.call.waitsFor obj)

end

/-- What a call knows about the table of its transaction. -/
def LocalInv (l : Local Obj) : Prop :=
  match l.call with
  | .idle _ | .decrement _ _ => True
  | .read obj | .readWait obj => ∃ locks, l.locks = .table locks ∧ locks.level obj = none
  | .write obj level | .writeWait obj level =>
    ∃ locks, l.locks = .table locks ∧ locks.level obj = level ∧ level ≠ some .write
  | .unlock _ => ∃ locks, l.locks = .table locks
  | .commit putBack left =>
    if putBack then l.locks = .table [] ∧ left = [] else l.locks = .absent

end Tables

variable {Xid Obj : Type} [DecidableEq Obj]

/-- A lock has the counts, and a writer is alone. -/
structure LockInv [Fintype Xid] (s : State Xid Obj) (obj : Obj) : Prop where
  readers : (s.lockOf obj).readers = tally (Local.readers obj) s.locals
  writers : (s.lockOf obj).writers = tally (Local.writers obj) s.locals
  waiting : (s.lockOf obj).waiting = tally (Local.waiting obj) s.locals
  active : (s.lockOf obj).active = tally (Local.active obj) s.locals
  exclusive : (s.lockOf obj).writers = 0 ∨ (s.lockOf obj).writers = 1 ∧ (s.lockOf obj).readers = 1

structure Inv [Fintype Xid] (s : State Xid Obj) : Prop where
  locals : ∀ xid, LocalInv (s.locals xid)
  locks : ∀ obj, LockInv s obj

/-- The counts of an object that two states of a transaction have in common. -/
structure SameCounts (obj : Obj) (l l' : Local Obj) : Prop where
  readers : l'.readers obj = l.readers obj
  writers : l'.writers obj = l.writers obj
  waiting : l'.waiting obj = l.waiting obj
  active : l'.active obj = l.active obj

/-- A step of `xid` that changes the lock of `obj` by what it changes the contribution of
`xid`. -/
structure Moves [DecidableEq Xid] (s after : State Xid Obj) (xid : Xid) (obj : Obj)
    (l : Local Obj) : Prop where
  locals : after.locals = update s.locals xid l
  others : ∀ o, o ≠ obj → after.lockOf o = s.lockOf o ∧ SameCounts o (s.locals xid) l
  readers : (after.lockOf obj).readers =
    (s.lockOf obj).readers - (s.locals xid).readers obj + l.readers obj
  writers : (after.lockOf obj).writers =
    (s.lockOf obj).writers - (s.locals xid).writers obj + l.writers obj
  waiting : (after.lockOf obj).waiting =
    (s.lockOf obj).waiting - (s.locals xid).waiting obj + l.waiting obj
  active : (after.lockOf obj).active =
    (s.lockOf obj).active - (s.locals xid).active obj + l.active obj
  exclusive : (after.lockOf obj).writers = 0 ∨
    (after.lockOf obj).writers = 1 ∧ (after.lockOf obj).readers = 1

section Moves
variable {xid : Xid} {l : Local Obj}

theorem lockOf_setLock (s : State Xid Obj) (obj o : Obj) (lock : Option Lock) :
    (s.setLock obj lock).lockOf o = if o = obj then lock.getD Lock.new else s.lockOf o := by
  show (update s.ridLockTable obj lock o).getD Lock.new = _
  rw [update_apply, apply_ite (Option.getD · Lock.new)]
  rfl

theorem sameCounts (held : l'.recorded o = l.recorded o ∧ l'.call.pending o = l.call.pending o ∨
      l'.recorded o = l.call.pending o ∧ l'.call.pending o = l.recorded o)
    (toWrite : l'.call.waitsToWrite o = l.call.waitsToWrite o)
    (waits : l'.call.waitsFor o = l.call.waitsFor o) : SameCounts o l l' := by
  have sum : ∀ count : Option Level → Int, count (l'.recorded o) + count (l'.call.pending o) =
      count (l.recorded o) + count (l.call.pending o) := by
    intro count
    cases held with
    | inl same => rw [same.1, same.2]
    | inr swapped =>
      rw [swapped.1, swapped.2]
      exact Int.add_comm ..
  refine ⟨sum fun level => one level.isSome, sum fun level => one (level = some .write), ?_, ?_⟩
  · rw [Local.waiting, Local.waiting, toWrite]
  · rw [Local.active, Local.active, waits]

variable [DecidableEq Xid] [Fintype Xid]

theorem LockInv.congr (h : LockInv s obj) (locals : after.locals = update s.locals xid l)
    (lock : after.lockOf obj = s.lockOf obj) (same : SameCounts obj (s.locals xid) l) :
    LockInv after obj := by
  refine ⟨?_, ?_, ?_, ?_, ?_⟩
  · rw [locals, lock, tally_update_same same.readers, h.readers]
  · rw [locals, lock, tally_update_same same.writers, h.writers]
  · rw [locals, lock, tally_update_same same.waiting, h.waiting]
  · rw [locals, lock, tally_update_same same.active, h.active]
  · rw [lock]
    exact h.exclusive

theorem Inv.move (h : Inv s) (m : Moves s after xid obj l) (own : LocalInv l) : Inv after := by
  refine ⟨fun x => ?_, fun o => ?_⟩
  · rw [m.locals]
    exact update_cases (P := LocalInv) (fun _ => own) fun _ => h.locals x
  · have counts := h.locks o
    by_cases same : o = obj
    · subst same
      refine ⟨?_, ?_, ?_, ?_, m.exclusive⟩
      · rw [m.locals, tally_update, m.readers, counts.readers]
      · rw [m.locals, tally_update, m.writers, counts.writers]
      · rw [m.locals, tally_update, m.waiting, counts.waiting]
      · rw [m.locals, tally_update, m.active, counts.active]
    · obtain ⟨lock, same⟩ := m.others o same
      exact counts.congr m.locals lock same

theorem Inv.keep (h : Inv s) (own : LocalInv l) (same : ∀ o, SameCounts o (s.locals xid) l) :
    Inv (s.setLocal xid l) :=
  ⟨fun x => update_cases (P := LocalInv) (fun _ => own) fun _ => h.locals x,
    fun o => (h.locks o).congr rfl rfl (same o)⟩

end Moves

/-- A request under the mutex of its object: `l` is the lock, on which the request is counted as
active, and as waiting if `w` is 1. -/
structure Asks (s : State Xid Obj) (xid : Xid) (obj : Obj) (l : Lock) (w : Int) : Prop where
  readers : l.readers = (s.lockOf obj).readers
  writers : l.writers = (s.lockOf obj).writers
  waiting : l.waiting = (s.lockOf obj).waiting - (s.locals xid).waiting obj + w
  active : l.active = (s.lockOf obj).active - (s.locals xid).active obj + 1
  pending : ∀ o, (s.locals xid).call.pending o = none
  elsewhere : ∀ o, o ≠ obj → (s.locals xid).call.waitsToWrite o = false ∧
    (s.locals xid).call.waitsFor o = false

section Grants
variable [DecidableEq Xid] {xid : Xid} {obj : Obj}

omit [DecidableEq Obj] in
theorem lockOf_setLocal (s : State Xid Obj) (xid : Xid) (own : Local Obj) (o : Obj) :
    (s.setLocal xid own).lockOf o = s.lockOf o := rfl

theorem Inv.answer [Fintype Xid] (h : Inv s) (asks : Asks s xid obj l w) (inv : LocalInv own)
    (settled : ∀ o, own.call.pending o = none)
    (elsewhere : ∀ o, o ≠ obj → own.recorded o = (s.locals xid).recorded o ∧
      own.call.waitsToWrite o = false ∧ own.call.waitsFor o = false)
    (readers : lock.readers = l.readers - one (((s.locals xid).recorded obj).isSome) +
      one ((own.recorded obj).isSome))
    (writers : lock.writers = l.writers - one ((s.locals xid).recorded obj = some .write) +
      one (own.recorded obj = some .write))
    (waiting : lock.waiting = l.waiting - w + own.waiting obj)
    (active : lock.active = l.active - 1 + own.active obj)
    (exclusive : lock.writers = 0 ∨ lock.writers = 1 ∧ lock.readers = 1) :
    Inv ((s.setLock obj (some lock)).setLocal xid own) := by
  have here : ((s.setLock obj (some lock)).setLocal xid own).lockOf obj = lock := by
    rw [lockOf_setLocal, lockOf_setLock, if_pos rfl]
    rfl
  have asked := asks.readers
  have askedWriters := asks.writers
  have askedWaiting := asks.waiting
  have askedActive := asks.active
  have moves : Moves s ((s.setLock obj (some lock)).setLocal xid own) xid obj own := by
    refine ⟨rfl, fun o ne => ⟨?_, ?_⟩, ?_, ?_, ?_, ?_, ?_⟩
    · rw [lockOf_setLocal, lockOf_setLock, if_neg ne]
    · have same := elsewhere o ne
      have before := asks.elsewhere o ne
      refine sameCounts (.inl ⟨same.1, ?_⟩) (same.2.1.trans before.1.symm) (same.2.2.trans before.2.symm)
      rw [asks.pending o, settled o]
    · rw [here, Local.readers, Local.readers, asks.pending, settled]
      omega
    · rw [here, Local.writers, Local.writers, asks.pending, settled]
      omega
    · rw [here]
      omega
    · rw [here]
      omega
    · rw [here]
      exact exclusive
  exact h.move moves inv

end Grants

/-- A call that waits for nothing and has nothing to release. -/
structure Call.Calm (call : Call Obj) : Prop where
  pending : ∀ o, call.pending o = none
  toWrite : ∀ o, call.waitsToWrite o = false
  waits : ∀ o, call.waitsFor o = false

section Steps
variable {s : State Xid Obj}

theorem locksOf_ok (run : s.locksOf xid = .ok locks) :
    (∃ ret, (s.locals xid).call = .idle ret) ∧ ∀ o, (s.locals xid).recorded o = locks.level o := by
  rw [State.locksOf] at run
  split at run
  · next ret call absent =>
    cases run
    exact ⟨⟨ret, call⟩, fun o => by rw [Local.recorded, absent]; rfl⟩
  · next ret locks call table =>
    cases run
    exact ⟨⟨ret, call⟩, fun o => by rw [Local.recorded, table]⟩
  · cases run
  · cases run

theorem calm_idle {ret : Int} : (Call.idle ret : Call Obj).Calm :=
  ⟨fun _ => rfl, fun _ => rfl, fun _ => rfl⟩

variable [DecidableEq Xid] [Fintype Xid] (h : Inv s)
include h

theorem Inv.calm {own : Local Obj} (inv : LocalInv own) (before : (s.locals xid).call.Calm)
    (calm : own.call.Calm) (recorded : ∀ o, own.recorded o = (s.locals xid).recorded o) :
    Inv (s.setLocal xid own) := by
  refine h.keep inv fun o => sameCounts (.inl ⟨recorded o, ?_⟩) ?_ ?_
  · rw [calm.pending, before.pending]
  · rw [calm.toWrite, before.toWrite]
  · rw [calm.waits, before.waits]

theorem Inv.starts {locks : XidLocks Obj} {call : Call Obj} (run : s.locksOf xid = .ok locks)
    (inv : LocalInv ⟨.table locks, call⟩) (calm : call.Calm) :
    Inv (s.setLocal xid ⟨.table locks, call⟩) := by
  obtain ⟨⟨ret, idle⟩, recorded⟩ := locksOf_ok run
  refine h.calm inv ?_ calm fun o => (recorded o).symm
  rw [idle]
  exact calm_idle

theorem Inv.beginTransaction (run : s.beginTransaction xid = .ok after) : Inv after := by
  rw [State.beginTransaction] at run
  split at run
  · next ret call absent =>
    cases run
    refine h.calm trivial (call ▸ calm_idle) calm_idle fun o => ?_
    rw [Local.recorded, Local.recorded, absent]
    rfl
  · next ret call _ =>
    cases run
    exact h.calm trivial (call ▸ calm_idle) calm_idle fun o => rfl
  · cases run

theorem Inv.readLock (run : s.readLock xid obj = .ok after) : Inv after := by
  obtain ⟨locks, opened, run⟩ := bind_eq_ok.mp run
  split at run
  · cases run
    exact h.starts opened trivial calm_idle
  · next free =>
    cases run
    refine h.starts opened ⟨locks, rfl, ?_⟩ ⟨fun _ => rfl, fun _ => rfl, fun _ => rfl⟩
    exact Option.not_isSome_iff_eq_none.mp free

theorem Inv.writeLock (run : s.writeLock xid obj = .ok after) : Inv after := by
  obtain ⟨locks, opened, run⟩ := bind_eq_ok.mp run
  split at run
  · cases run
    exact h.starts opened trivial calm_idle
  · next free =>
    cases run
    exact h.starts opened ⟨locks, rfl, rfl, free⟩ ⟨fun _ => rfl, fun _ => rfl, fun _ => rfl⟩

theorem Inv.unlock (run : s.unlock xid obj = .ok after) : Inv after := by
  obtain ⟨locks, opened, run⟩ := bind_eq_ok.mp run
  cases run
  exact h.starts opened ⟨locks, rfl⟩ ⟨fun _ => rfl, fun _ => rfl, fun _ => rfl⟩

theorem Inv.remove (run : s.remove xid = .ok after) : Inv after := by
  rw [State.remove] at run
  split at run
  · next obj locks call table =>
    split at run
    · next level held =>
      cases run
      refine h.keep trivial fun o => ?_
      have recorded : (s.locals xid).recorded o = locks.level o := by rw [Local.recorded, table]
      have removed : (⟨.table (locks.remove obj), .decrement obj level⟩ : Local Obj).recorded o =
          if o = obj then none else locks.level o := level_remove
      refine sameCounts ?_ (by rw [call]; rfl) (by rw [call]; rfl)
      by_cases same : o = obj
      · refine .inr ⟨?_, ?_⟩
        · rw [removed, if_pos same, call]
          rfl
        · rw [recorded, same, held]
          exact if_pos rfl
      · refine .inl ⟨?_, ?_⟩
        · rw [removed, if_neg same, recorded]
        · rw [call]
          exact if_neg (Ne.symm same)
    · cases run
  · cases run

theorem Inv.commit (run : s.commit xid = .ok after) : Inv after := by
  rw [State.commit] at run
  split at run
  · next ret locks call table =>
    cases run
    refine h.keep rfl fun o => sameCounts (.inr ⟨?_, ?_⟩) (by rw [call]; rfl) (by rw [call]; rfl)
    · rw [call]
      rfl
    · rw [Local.recorded, table]
      rfl
  · next ret call absent =>
    cases run
    refine h.keep ⟨rfl, rfl⟩ fun o => sameCounts (.inl ⟨?_, ?_⟩) (by rw [call]; rfl) (by rw [call]; rfl)
    · rw [Local.recorded, Local.recorded, absent]
      rfl
    · rw [call]
      rfl
  · cases run
  · cases run

theorem Inv.finish (run : s.finish xid = .ok after) : Inv after := by
  have own := h.locals xid
  rw [State.finish] at run
  split at run
  · next putBack call =>
    cases run
    rw [LocalInv, call] at own
    refine h.keep trivial fun o => sameCounts (.inl ⟨?_, ?_⟩) (by rw [call]; rfl) (by rw [call]; rfl)
    · cases putBack with
      | false => rfl
      | true =>
        have table : (s.locals xid).locks = .table [] := own.1
        rw [Local.recorded, Local.recorded, table]
        rfl
    · rw [call]
      rfl
  · cases run

end Steps

section Requests
variable {s : State Xid Obj} {level : Option Level}

theorem asks_calm (calm : (s.locals xid).call.Calm) (obj : Obj) (w : Int) :
    Asks s xid obj { s.lockOf obj with
      active := (s.lockOf obj).active + 1, waiting := (s.lockOf obj).waiting + w } w := by
  refine ⟨rfl, rfl, ?_, ?_, calm.pending, fun o _ => ⟨calm.toWrite o, calm.waits o⟩⟩
  · rw [Local.waiting, calm.toWrite]
    simp [one]
  · rw [Local.active, calm.waits]
    simp [one]

section
variable {obj : Obj} (there : s.ridLockTable obj = some l)
include there

omit [DecidableEq Obj] in
theorem lockOf_some : s.lockOf obj = l := by
  rw [State.lockOf, there]
  rfl

theorem asks_waiting (toWrite : (s.locals xid).waiting obj = w) (waits : (s.locals xid).call.waitsFor obj = true)
    (settled : ∀ o, (s.locals xid).call.pending o = none)
    (elsewhere : ∀ o, o ≠ obj → (s.locals xid).call.waitsToWrite o = false ∧
      (s.locals xid).call.waitsFor o = false) : Asks s xid obj l w := by
  have lock := lockOf_some there
  have active : (s.locals xid).active obj = 1 := if_pos waits
  refine ⟨by rw [lock], by rw [lock], ?_, ?_, settled, elsewhere⟩
  · rw [lock, toWrite, Int.sub_add_cancel]
  · rw [lock, active, Int.sub_add_cancel]

theorem asks_readWait (call : (s.locals xid).call = .readWait obj) : Asks s xid obj l 0 :=
  asks_waiting there (by rw [Local.waiting, call]; rfl) (by rw [call]; exact decide_eq_true rfl)
    (fun o => by rw [call]; rfl) fun o ne => by rw [call]; exact ⟨rfl, decide_eq_false (Ne.symm ne)⟩

theorem asks_writeWait (call : (s.locals xid).call = .writeWait obj level) : Asks s xid obj l 1 :=
  asks_waiting there (by rw [Local.waiting, call]; exact if_pos (decide_eq_true rfl))
    (by rw [call]; exact decide_eq_true rfl) (fun o => by rw [call]; rfl)
    fun o ne => by rw [call]; exact ⟨decide_eq_false (Ne.symm ne), decide_eq_false (Ne.symm ne)⟩

end

variable [DecidableEq Xid]

theorem grantRead_ok (run : s.grantRead xid obj l = .ok after) :
    ∃ locks, after = (s.setLock obj (some { l with
        readers := l.readers + 1, active := l.active - 1 })).setLocal xid ⟨.table locks, .idle 0⟩ ∧
      ∀ o, locks.level o = if o = obj then some .read else (s.locals xid).recorded o := by
  rw [State.grantRead] at run
  split at run
  · next locks table =>
    refine ⟨_, (Except.ok.inj run).symm, fun o => ?_⟩
    rw [level_insert (by rw [level_remove, if_pos rfl]), level_remove,
      Local.recorded, table]
    split <;> rfl
  · cases run

theorem grantWrite_ok (run : s.grantWrite xid obj level l = .ok after) :
    ∃ locks, after = (s.setLock obj (some { l with
        waiting := l.waiting - 1
        readers := if level = none then l.readers + 1 else l.readers
        writers := l.writers + 1
        active := l.active - 1 })).setLocal xid ⟨.table locks, .idle 0⟩ ∧
      ((s.locals xid).recorded obj = level → level ≠ some .write →
        ∀ o, locks.level o = if o = obj then some .write else (s.locals xid).recorded o) := by
  rw [State.grantWrite] at run
  split at run
  · next locks table =>
    refine ⟨_, (Except.ok.inj run).symm, fun had notYet o => ?_⟩
    have recorded : ∀ o, (s.locals xid).recorded o = locks.level o := fun o => by
      rw [Local.recorded, table]
    have free : (if level = some .read then locks.remove obj else locks).level obj = none := by
      split
      · rw [level_remove, if_pos rfl]
      · next fresh =>
        rw [← recorded, had]
        match level, notYet, fresh with
        | none, _, _ => rfl
        | some .read, _, fresh => exact absurd rfl fresh
        | some .write, notYet, _ => exact absurd rfl notYet
    rw [level_insert free, recorded]
    split
    · rfl
    · next ne =>
      split
      · rw [level_remove, if_neg ne]
      · rfl
  · cases run

variable [Fintype Xid]

theorem Inv.grantRead (h : Inv s) (asks : Asks s xid obj l 0) (alone : l.writers = 0)
    (free : (s.locals xid).recorded obj = none) (run : s.grantRead xid obj l = .ok after) :
    Inv after := by
  obtain ⟨locks, rfl, granted⟩ := grantRead_ok run
  have own : (⟨.table locks, .idle 0⟩ : Local Obj).recorded obj = some .read :=
    (granted obj).trans (if_pos rfl)
  refine h.answer asks trivial (fun _ => rfl) (fun o ne => ⟨?_, rfl, rfl⟩) ?_ ?_ ?_ ?_ (.inl alone)
  · exact (granted o).trans (if_neg ne)
  · rw [free, own]
    simp [one]
  · rw [free, own]
    simp [one]
  · simp [Local.waiting, Call.waitsToWrite, one]
  · simp [Local.active, Call.waitsFor, one]

theorem Inv.grantWrite (h : Inv s) (asks : Asks s xid obj l 1) (go : ¬State.mustWait l level)
    (had : (s.locals xid).recorded obj = level) (notYet : level ≠ some .write)
    (run : s.grantWrite xid obj level l = .ok after) : Inv after := by
  have alone : l.writers = 0 ∧ l.readers - State.me level = 0 := by
    rw [State.mustWait] at go
    omega
  obtain ⟨locks, rfl, granted⟩ := grantWrite_ok run
  have granted := granted had notYet
  have own : (⟨.table locks, .idle 0⟩ : Local Obj).recorded obj = some .write :=
    (granted obj).trans (if_pos rfl)
  refine h.answer asks trivial (fun _ => rfl) (fun o ne => ⟨?_, rfl, rfl⟩) ?_ ?_ ?_ ?_ (.inr ?_)
  · exact (granted o).trans (if_neg ne)
  · rw [had, own]
    match level, notYet with
    | none, _ => simp [one]
    | some .read, _ => simp [one]
  · rw [had, own]
    simp [one, notYet]
  · simp [Local.waiting, Call.waitsToWrite, one]
  · simp [Local.active, Call.waitsFor, one]
  · obtain ⟨writers, readers⟩ := alone
    match level, notYet with
    | none, _ =>
      have readers : l.readers - 0 = 0 := readers
      show l.writers + 1 = 1 ∧ l.readers + 1 = 1
      omega
    | some .read, _ =>
      have readers : l.readers - 1 = 0 := readers
      show l.writers + 1 = 1 ∧ l.readers = 1
      omega

theorem Inv.setCall (h : Inv s) (asks : Asks s xid obj l w) {call : Call Obj}
    (inv : LocalInv ⟨(s.locals xid).locks, call⟩) (settled : ∀ o, call.pending o = none)
    (elsewhere : ∀ o, o ≠ obj → call.waitsToWrite o = false ∧ call.waitsFor o = false)
    (readers : l'.readers = l.readers) (writers : l'.writers = l.writers)
    (waiting : l'.waiting = l.waiting - w + one (call.waitsToWrite obj))
    (active : l'.active = l.active - 1 + one (call.waitsFor obj)) :
    Inv ((s.setLock obj (some l')).setCall xid call) := by
  have exclusive := (h.locks obj).exclusive
  rw [← asks.readers, ← asks.writers, ← readers, ← writers] at exclusive
  refine h.answer asks inv settled (fun o ne => ⟨rfl, elsewhere o ne⟩) ?_ ?_ waiting active exclusive
  · rw [readers]
    exact (Int.sub_add_cancel ..).symm
  · rw [writers]
    exact (Int.sub_add_cancel ..).symm

end Requests

section Run
variable {after : State Xid Obj} {obj : Obj}

theorem LocalInv.recorded_read {own : Local Obj} (h : LocalInv own)
    (call : own.call = .read obj ∨ own.call = .readWait obj) : own.recorded obj = none := by
  rw [LocalInv] at h
  cases call with
  | inl eq | inr eq =>
    rw [eq] at h
    obtain ⟨locks, table, free⟩ := h
    rw [Local.recorded, table]
    exact free

theorem LocalInv.recorded_write {level : Option Level} (h : LocalInv own)
    (call : own.call = .write obj level ∨ own.call = .writeWait obj level) :
    own.recorded obj = level ∧ level ≠ some .write := by
  rw [LocalInv] at h
  cases call with
  | inl eq | inr eq =>
    rw [eq] at h
    obtain ⟨locks, table, had, notYet⟩ := h
    rw [Local.recorded, table]
    exact ⟨had, notYet⟩

variable [DecidableEq Xid] [Fintype Xid]

theorem Inv.enter (h : Inv s) (run : s.enter xid = .ok after) : Inv after := by
  have own := h.locals xid
  rw [State.enter] at run
  split at run
  · next obj call =>
    have calm : (s.locals xid).call.Calm :=
      call ▸ ⟨fun _ => rfl, fun _ => rfl, fun _ => rfl⟩
    have asks := asks_calm calm obj 0
    rw [Int.add_zero] at asks
    simp only at run
    split at run
    · cases run
      have table : LocalInv ⟨(s.locals xid).locks, .readWait obj⟩ := by
        rw [LocalInv, call] at own
        exact own
      exact h.setCall asks table (fun _ => rfl) (fun o ne => ⟨rfl, decide_eq_false (Ne.symm ne)⟩)
        rfl rfl (by simp [one, Call.waitsToWrite]) (by simp [one, Call.waitsFor])
    · next go =>
      exact h.grantRead asks (by simp at go; exact go.1) (own.recorded_read (.inl call)) run
  · next obj level call =>
    have calm : (s.locals xid).call.Calm :=
      call ▸ ⟨fun _ => rfl, fun _ => rfl, fun _ => rfl⟩
    have asks := asks_calm calm obj 1
    have had := own.recorded_write (.inl call)
    simp only at run
    split at run
    · cases run
      have table : LocalInv ⟨(s.locals xid).locks, .writeWait obj level⟩ := by
        rw [LocalInv, call] at own
        exact own
      exact h.setCall asks table (fun _ => rfl)
        (fun o ne => ⟨decide_eq_false (Ne.symm ne), decide_eq_false (Ne.symm ne)⟩)
        rfl rfl (by simp [one, Call.waitsToWrite]) (by simp [one, Call.waitsFor])
    · next go => exact h.grantWrite asks go had.1 had.2 run
  · cases run

theorem Inv.wake (h : Inv s) (run : s.wake xid = .ok after) : Inv after := by
  have own := h.locals xid
  rw [State.wake] at run
  split at run
  · next obj call =>
    split at run
    · next l there =>
      split at run
      · cases run
        exact h
      · next go =>
        exact h.grantRead (asks_readWait there call) (Decidable.not_not.mp go)
          (own.recorded_read (.inr call)) run
    · cases run
  · next obj level call =>
    have had := own.recorded_write (.inr call)
    split at run
    · next l there =>
      split at run
      · cases run
        exact h
      · next go => exact h.grantWrite (asks_writeWait there call) go had.1 had.2 run
    · cases run
  · cases run

theorem Inv.timeout (h : Inv s) (run : s.timeout xid = .ok after) : Inv after := by
  rw [State.timeout] at run
  split at run
  · next obj call =>
    split at run
    · next l there =>
      cases run
      have inv : LocalInv ⟨(s.locals xid).locks, .idle lladdDeadlock⟩ := trivial
      exact h.setCall (asks_readWait there call) inv (fun _ => rfl) (fun _ _ => ⟨rfl, rfl⟩) rfl rfl
        (by simp [one, Call.waitsToWrite]) (by simp [one, Call.waitsFor])
    · cases run
  · next obj level call =>
    split at run
    · next l there =>
      cases run
      have inv : LocalInv ⟨(s.locals xid).locks, .idle lladdDeadlock⟩ := trivial
      exact h.setCall (asks_writeWait there call) inv (fun _ => rfl) (fun _ _ => ⟨rfl, rfl⟩) rfl rfl
        (by simp [one, Call.waitsToWrite]) (by simp [one, Call.waitsFor])
    · cases run
  · cases run

end Run

section Release
variable {s : State Xid Obj} {level : Level}

theorem one_nonneg (p : Prop) [Decidable p] : 0 ≤ one p := by
  rw [one]
  split <;> omega

theorem one_mono {p q : Prop} [Decidable p] [Decidable q] (h : p → q) : one p ≤ one q := by
  rw [one, one]
  split
  · next holds => rw [if_pos (h holds)]
  · split <;> omega

theorem Local.writers_nonneg (obj : Obj) (l : Local Obj) : 0 ≤ l.writers obj :=
  Int.add_nonneg (one_nonneg _) (one_nonneg _)

theorem Local.readers_nonneg (obj : Obj) (l : Local Obj) : 0 ≤ l.readers obj :=
  Int.add_nonneg (one_nonneg _) (one_nonneg _)

theorem Local.writers_le_readers (obj : Obj) (l : Local Obj) : l.writers obj ≤ l.readers obj :=
  Int.add_le_add (one_mono fun eq => by rw [eq]; rfl) (one_mono fun eq => by rw [eq]; rfl)

/-- The lock after `decrementLock`. -/
def decremented (l : Lock) : Level → Lock
  | .write => { l with writers := l.writers - 1, readers := l.readers - 1 }
  | .read => { l with readers := l.readers - 1 }

theorem decrementLock_ok (run : s.decrementLock obj level = .ok after) :
    after.locals = s.locals ∧
      ∀ o, after.lockOf o = if o = obj then decremented (s.lockOf obj) level else s.lockOf o := by
  rw [State.decrementLock] at run
  split at run
  · cases run
  · next l there =>
    have eq := Except.ok.inj run
    rw [← eq]
    refine ⟨rfl, fun o => ?_⟩
    rw [lockOf_setLock, lockOf_some there]
    have same : ∀ d : Lock, (if d = Lock.new then none else some d : Option Lock).getD Lock.new = d :=
      fun d => by
        split
        · next new => exact new.symm
        · rfl
    cases level with
    | read => rw [same]; rfl
    | write => rw [same]; rfl

variable [DecidableEq Xid] [Fintype Xid]

theorem Inv.decrementLock {call : Call Obj} (h : Inv s) (run : s.decrementLock obj level = .ok after)
    (inv : LocalInv ⟨(s.locals xid).locks, call⟩)
    (pending : (s.locals xid).call.pending obj = some level) (gone : call.pending obj = none)
    (others : ∀ o, o ≠ obj → call.pending o = (s.locals xid).call.pending o)
    (toWrite : ∀ o, call.waitsToWrite o = (s.locals xid).call.waitsToWrite o)
    (waits : ∀ o, call.waitsFor o = (s.locals xid).call.waitsFor o) :
    Inv (after.setCall xid call) := by
  obtain ⟨locals, locks⟩ := decrementLock_ok run
  have here : (after.setCall xid call).lockOf obj = decremented (s.lockOf obj) level :=
    (locks obj).trans (if_pos rfl)
  have exclusive := (h.locks obj).exclusive
  have readers := (h.locks obj).readers
  have writers := (h.locks obj).writers
  have low := le_tally (f := Local.writers obj) (fun x => Local.writers_nonneg obj (s.locals x)) xid
  have ahead := tally_add_le (fun x => Local.writers_le_readers obj (s.locals x)) xid
  have mono : one ((s.locals xid).recorded obj = some .write) ≤
      one (((s.locals xid).recorded obj).isSome) := one_mono fun eq => by rw [eq]; rfl
  have nonneg := one_nonneg ((s.locals xid).recorded obj = some .write)
  have released : ∀ o, (⟨(s.locals xid).locks, call⟩ : Local Obj).recorded o =
      (s.locals xid).recorded o := fun _ => rfl
  have moves : Moves s (after.setCall xid call) xid obj ⟨(s.locals xid).locks, call⟩ := by
    refine ⟨?_, fun o ne => ⟨?_, ?_⟩, ?_, ?_, ?_, ?_, ?_⟩
    · rw [State.setCall, State.setLocal, locals]
    · rw [State.setCall, lockOf_setLocal, locks o, if_neg ne]
    · exact sameCounts (.inl ⟨rfl, others o ne⟩) (toWrite o) (waits o)
    · rw [here, Local.readers, Local.readers, released, pending]
      simp only [gone]
      cases level <;> simp [decremented, one] <;> omega
    · rw [here, Local.writers, Local.writers, released, pending]
      simp only [gone]
      cases level <;> simp [decremented, one]
      omega
    · rw [here, Local.waiting, Local.waiting, toWrite]
      cases level <;> simp [decremented]
    · rw [here, Local.active, Local.active, waits]
      cases level <;> simp [decremented]
    · rw [here]
      cases level with
      | read =>
        have own : (s.locals xid).readers obj =
            one (((s.locals xid).recorded obj).isSome) + 1 := by
          rw [Local.readers, pending]
          rfl
        have own' : (s.locals xid).writers obj =
            one ((s.locals xid).recorded obj = some .write) + 0 := by
          rw [Local.writers, pending]
          rfl
        refine .inl ?_
        show (s.lockOf obj).writers = 0
        omega
      | write =>
        have own : (s.locals xid).writers obj =
            one ((s.locals xid).recorded obj = some .write) + 1 := by
          rw [Local.writers, pending]
          rfl
        refine .inl ?_
        show (s.lockOf obj).writers - 1 = 0
        omega
  exact h.move moves inv

theorem Inv.decrement (h : Inv s) (run : s.decrement xid = .ok after) : Inv after := by
  rw [State.decrement] at run
  split at run
  · next obj level call =>
    obtain ⟨mid, dec, eq⟩ := bind_eq_ok.mp run
    cases eq
    have inv : LocalInv ⟨(s.locals xid).locks, .idle 0⟩ := trivial
    refine h.decrementLock dec inv ?_ rfl (fun o ne => ?_) (fun o => ?_) fun o => ?_
    · rw [call]
      exact if_pos rfl
    · rw [call]
      exact (if_neg (Ne.symm ne)).symm
    · rw [call]
      rfl
    · rw [call]
      rfl
  · cases run

theorem Inv.release (h : Inv s) (run : s.release xid obj = .ok after) : Inv after := by
  have own := h.locals xid
  rw [State.release] at run
  split at run
  · next putBack left call =>
    rw [LocalInv, call] at own
    split at run
    · next level held =>
      obtain ⟨mid, dec, eq⟩ := bind_eq_ok.mp run
      cases eq
      have inv : LocalInv ⟨(s.locals xid).locks, .commit putBack (left.remove obj)⟩ := by
        cases putBack with
        | false => exact own
        | true => exact ⟨own.1, by rw [own.2]; rfl⟩
      refine h.decrementLock dec inv ?_ ?_ (fun o ne => ?_) (fun o => ?_) fun o => ?_
      · rw [call]
        exact held
      · exact level_remove.trans (if_pos rfl)
      · rw [call]
        exact level_remove.trans (if_neg ne)
      · rw [call]
        rfl
      · rw [call]
        rfl
    · cases run
  · cases run

end Release

section Run
variable [Fintype Xid] {xid : Xid}

theorem Inv.init : Inv (State.init : State Xid Obj) := by
  refine ⟨fun _ => trivial, fun obj => ⟨?_, ?_, ?_, ?_, .inl rfl⟩⟩
  · exact (tally_zero fun _ => rfl).symm
  · exact (tally_zero fun _ => rfl).symm
  · exact (tally_zero fun _ => rfl).symm
  · exact (tally_zero fun _ => rfl).symm

theorem Inv.step [DecidableEq Xid] (h : Inv s) {op : Op Obj} (run : op.run s xid =
      .ok after) : Inv after := by
  cases op with
  | beginTransaction => exact h.beginTransaction run
  | readLock obj => exact h.readLock run
  | writeLock obj => exact h.writeLock run
  | enter => exact h.enter run
  | wake => exact h.wake run
  | timeout => exact h.timeout run
  | unlock obj => exact h.unlock run
  | remove => exact h.remove run
  | decrement => exact h.decrement run
  | commit => exact h.commit run
  | release obj => exact h.release run
  | finish => exact h.finish run

end Run

end Stasis.LockManager
