import Stasis.Recovery.Rollback

/-!
Transactions that run, commit and abort side by side.

Every call writes to the shared log and to the caller's slot. An abort logs its
XABORT record when it likes, and the rollback mutex then admits one undo pass at
a time, whose steps interleave with the calls of all other transactions. The
slot of a transaction that has been rolled back is free for reuse before the
pass that rolled it back has returned.
-/
namespace Stasis
open TransactionTable Database Machine Function
variable {C : Type}

/-- The undo pass that holds the rollback mutex, with the entries that its
transaction had outstanding when it was scheduled. -/
structure UndoPass where
  xid : Int
  victims : List LogEntry
  point : UndoPoint

structure World (C : Type) where
  db : Database C
  sessions : Int → Session
  aborted : Int → Bool
  pass : Option UndoPass

namespace World

def start (t : LogType) (pages : Pages C) : World C where
  db := ⟨Log.empty t, init, pages, []⟩
  sessions := fun _ => Session.start
  aborted := fun _ => false
  pass := none

/-- The transaction is inside its undo pass. -/
def Busy (w : World C) (xid : Int) : Prop :=
  ∃ a, w.pass = some a ∧ a.xid = xid ∧ Holds w.db a.point

inductive Step (ops : OperationTable C) : World C → World C → Prop
  | begin (w : World C) (xid : Int) (db : Database C) (run : tbegin w.db xid = some db) :
      Step ops w { w with
        db := db
        sessions := update w.sessions xid Session.start
        aborted := update w.aborted xid false }
  | call (w : World C) (xid : Int) (c : Call) (db : Database C) (g : Session)
      (free : ¬ w.Busy xid) (live : w.aborted xid = false) (registered : c.Registered ops)
      (run : call ops xid w.db (w.sessions xid) c = some (db, g)) :
      Step ops w { w with db := db, sessions := update w.sessions xid g }
  | commit (w : World C) (xid : Int) (db : Database C) (free : ¬ w.Busy xid)
      (live : w.aborted xid = false) (run : tcommit w.db xid = some db) :
      Step ops w { w with db := db }
  | logAbort (w : World C) (xid : Int) (l : TransactionTableEntry) (free : ¬ w.Busy xid)
      (live : w.aborted xid = false) (slot : w.db.tbl.get xid = some l)
      (logged : l.prevLSN ≠ invalidLsn) :
      Step ops w { w with
        db := w.db.stasisLogWriteCommon xid .xabort
        sessions := update w.sessions xid
          ⟨w.db.log.reserveEntry (w.db.tbl xid).prevLSN xid .xabort ::
            (w.sessions xid).outstanding, []⟩
        aborted := update w.aborted xid true }
  | forget (w : World C) (xid : Int) (l : TransactionTableEntry) (tbl : TransactionTable)
      (free : ¬ w.Busy xid) (live : w.aborted xid = false)
      (slot : w.db.tbl.get xid = some l) (empty : l.prevLSN = invalidLsn)
      (run : w.db.tbl.forget xid = some tbl) :
      Step ops w { w with db := { w.db with tbl := tbl } }
  | undoTrans (w : World C) (xid : Int) (db : Database C) (pt : UndoPoint)
      (mutex : w.pass = none) (logged : w.aborted xid = true)
      (run : undoTrans w.db (w.db.tbl xid) = some (db, pt)) :
      Step ops w { w with
        db := db
        aborted := update w.aborted xid false
        pass := some ⟨xid, (w.sessions xid).outstanding, pt⟩ }
  | undo (w : World C) (a : UndoPass) (db : Database C) (pt : UndoPoint)
      (held : w.pass = some a) (run : undoStep ops (w.db, a.point) = some (db, pt)) :
      Step ops w { w with db := db, pass := some { a with point := pt } }
  | release (w : World C) (a : UndoPass) (held : w.pass = some a)
      (done : a.point = .finished) : Step ops w { w with pass := none }

def Reachable (ops : OperationTable C) (t : LogType) (pages : Pages C) (w : World C) : Prop :=
  Relation.ReflTransGen (Step ops) (start t pages) w

end World

/-- The session refers to an entry, now or once a nested top action ends. -/
def Session.Mentions (g : Session) (e : LogEntry) : Prop :=
  e ∈ g.outstanding ∨ ∃ h ∈ g.opened, e ∈ h.2

/-- As long as a transaction may have to undo the entry with LSN zero it has
written no CLR: nobody wrote to the log before it. -/
def ZeroFirst (xid : Int) (g : Session) (log : Log) : Prop :=
  (∃ e, g.Mentions e ∧ e.LSN = 0) →
    ∀ c ∈ log.entries, c.xid = xid → c.getCLRCompensated = none

/-- No CLR of the pass continues behind the entry with LSN zero. -/
def ZeroSpared (a : UndoPass) (log : Log) : Prop :=
  (∃ e ∈ a.victims, e.LSN = 0) →
    ∀ c ∈ log.entries, c.xid = a.xid → c.getCLRCompensated ≠ none → 0 ≤ c.prevLSN

/-- The pass and the entries that its transaction had outstanding. -/
structure PassInv (ops : OperationTable C) (db : Database C) (a : UndoPass) : Prop where
  rollback : ∃ rank, Rollback ops a.xid (a.victims.filter fun e => 0 < e.LSN) rank db a.point
  victims : ∀ e ∈ a.victims, e.xid = a.xid ∧ e.prevLSN < e.LSN ∧ 0 ≤ e.LSN
  behind : (∃ e ∈ a.victims, e.LSN = 0) → ∀ e ∈ a.victims, 0 < e.LSN → 0 ≤ e.prevLSN
  spared : ZeroSpared a db.log

structure WorldInv (ops : OperationTable C) (w : World C) : Prop where
  idle : w.pass = none → w.db.rollbackLSNs = []
  whenFree : ∀ x, (w.db.tbl x).xidWhenFree < 0
  session : ∀ x, InRange x → (w.db.tbl x).xid = x → ¬ w.Busy x →
    SessionInv ops x w.db (w.sessions x) ∧ ZeroFirst x (w.sessions x) w.db.log
  aborted : ∀ x, w.aborted x = true → InRange x ∧ (w.db.tbl x).xid = x ∧ ¬ w.Busy x ∧
    ∃ a rest, (w.sessions x).outstanding = a :: rest ∧ a.payload = .xabort ∧ 0 < a.LSN
  pass : ∀ a, w.pass = some a → PassInv ops w.db a

/-- What a call of `xid` outside of its rollback does to the shared state. -/
structure LocalWrite (xid : Int) (s s' : Database C) : Prop where
  log : s'.log = s.log ∨ ∃ prevLSN p, s'.log = s.log.writeEntry prevLSN xid p ∧
    ∀ ce, p ≠ .clrlog ce
  others : ∀ y, y ≠ xid → s'.tbl y = s.tbl y
  list : s'.rollbackLSNs = s.rollbackLSNs

theorem LocalWrite.grew (write : LocalWrite xid s s') : Grew s.log s'.log := by
  rcases write.log with same | ⟨prevLSN, p, grown, _⟩
  · exact .inl same
  · exact .inr ⟨prevLSN, xid, p, grown⟩

theorem LocalWrite.mem (write : LocalWrite xid s s') (hc : c ∈ s'.log.entries) :
    c ∈ s.log.entries ∨ c.xid = xid ∧ c.getCLRCompensated = none := by
  rcases write.log with same | ⟨prevLSN, p, grown, other⟩
  · rw [same] at hc
    exact .inl hc
  · rw [grown, Log.writeEntry_entries] at hc
    rcases List.mem_append.mp hc with hc | hc
    · exact .inl hc
    · obtain rfl := List.mem_singleton.mp hc
      refine .inr ⟨rfl, ?_⟩
      cases p with
      | clrlog ce => exact absurd rfl (other ce)
      | _ => rfl

theorem holds_active (inv : Rollback ops xid full rank s pt) (held : Holds s pt) :
    InRange xid ∧ (s.tbl xid).xid = xid := by
  cases pt with
  | outer =>
    rcases inv with ⟨_, _, _, _, rolling, _⟩ | ⟨_, idle, _⟩
    · exact ⟨rolling.range, rolling.active⟩
    · exact absurd idle held
  | inner off thisXid ra prepared =>
    obtain ⟨_, _, _, _, _, rolling, _⟩ := inv
    exact ⟨rolling.range, rolling.active⟩
  | logical ue pending ra =>
    obtain ⟨_, _, _, _, _, _, _, _, _, _, rolling, _⟩ := inv
    exact ⟨rolling.range, rolling.active⟩
  | finished => exact absurd held id

theorem holds_of_list (list : s'.rollbackLSNs = s.rollbackLSNs) (pt : UndoPoint) :
    Holds s' pt ↔ Holds s pt := by
  cases pt with
  | outer => simp only [Holds, list]
  | inner _ _ _ _ | logical _ _ _ | finished => rfl

section Local
variable {w : World C}

theorem passInv_local (write : LocalWrite xid w.db s') (free : ¬ w.Busy xid)
    (held : w.pass = some a) (inv : PassInv ops w.db a) : PassInv ops s' a := by
  obtain ⟨rank, rollback⟩ := inv.rollback
  refine ⟨⟨rank, rollback_frame rollback write.grew write.list fun holds => ?_⟩,
    inv.victims, inv.behind, fun zero c hc own clr => ?_⟩
  · apply write.others
    intro same
    exact free ⟨a, held, same, holds⟩
  · rcases write.mem hc with hc | ⟨_, none⟩
    · exact inv.spared zero c hc own clr
    · exact absurd none clr

/-- A call of one transaction keeps the invariant of the world, if it keeps that of
its own session. -/
theorem worldInv_local (g : Session) (flag : Bool) (inv : WorldInv ops w)
    (free : ¬ w.Busy xid) (write : LocalWrite xid w.db s')
    (whenFree : (s'.tbl xid).xidWhenFree < 0)
    (session : InRange xid → (s'.tbl xid).xid = xid →
      SessionInv ops xid s' g ∧ ZeroFirst xid g s'.log)
    (aborted : flag = true → InRange xid ∧ (s'.tbl xid).xid = xid ∧
      ∃ a rest, g.outstanding = a :: rest ∧ a.payload = .xabort ∧ 0 < a.LSN) :
    WorldInv ops { w with
      db := s'
      sessions := update w.sessions xid g
      aborted := update w.aborted xid flag } := by
  have busy : ∀ y, World.Busy { w with
      db := s'
      sessions := update w.sessions xid g
      aborted := update w.aborted xid flag } y ↔ w.Busy y := by
    intro y
    simp only [World.Busy, holds_of_list write.list]
  refine ⟨fun none => write.list.trans (inv.idle none), fun y => ?_, fun y range active idle => ?_,
    fun y set => ?_, fun a held => passInv_local write free held (inv.pass a held)⟩
  · by_cases same : y = xid
    · subst same
      exact whenFree
    · rw [write.others y same]
      exact inv.whenFree y
  · rw [busy] at idle
    by_cases same : y = xid
    · subst same
      simpa using session range active
    · rw [write.others y same] at active
      obtain ⟨keeps, zero⟩ := inv.session y range active idle
      simp only [update_of_ne same]
      refine ⟨?_, fun mentions c hc own => ?_⟩
      · rcases write.log with same' | ⟨prevLSN, p, grown, _⟩
        · exact keeps.frame (.inl same') (write.others y same)
        · exact keeps.frame (.inr ⟨_, _, _, grown⟩) (write.others y same)
      · rcases write.mem hc with hc | ⟨_, none⟩
        · exact zero mentions c hc own
        · exact none
  · rw [busy]
    by_cases same : y = xid
    · subst same
      simp only [update_self] at set ⊢
      obtain ⟨range, active, shape⟩ := aborted set
      exact ⟨range, active, free, shape⟩
    · simp only [update_of_ne same] at set ⊢
      rw [write.others y same]
      exact inv.aborted y set

theorem zeroFirst_write (zero : ZeroFirst xid g w.db.log) (other : ∀ ce, p ≠ .clrlog ce)
    (mentions : ∀ e, g'.Mentions e → e = w.db.log.reserveEntry prevLSN xid p ∨ g.Mentions e) :
    ZeroFirst xid g' (w.db.log.writeEntry prevLSN xid p) := by
  rintro ⟨e, he, first⟩ c hc own
  have fresh : (w.db.log.reserveEntry prevLSN xid p).getCLRCompensated = none := by
    cases p with
    | clrlog ce => exact absurd rfl (other ce)
    | _ => rfl
  rcases List.mem_append.mp hc with hc | hc
  · rcases mentions e he with rfl | he
    · -- the log handed out LSN zero, so it was empty
      have below := w.db.log.below c hc
      have nonneg := w.db.log.LSN_nonneg hc
      simp only [Log.reserveEntry_LSN] at first
      omega
    · exact zero ⟨e, he, first⟩ c hc own
  · obtain rfl := List.mem_singleton.mp hc
    exact fresh

end Local
end Stasis
