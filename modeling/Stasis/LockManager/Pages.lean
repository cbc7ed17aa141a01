import Stasis.LockManager.Table

/-!
Transactions that lock pages.

With the callbacks for pages, a load asks for a read lock and an update for a write lock as
well, and neither looks at the answer. An update of MULTI_PAGEID or SEGMENT_PAGEID only loads
the pages that it modifies. The locks are released by a commit or an abort, if the transaction
has written to the log. An abort gives its slot back before it releases the locks, and releases
them twice, once at the end of the rollback and once in `Tabort`; an xid is not used again
before that. `history` stands for the contents of the pages: who has modified them. `touched`
is no part of the program: it records the pages that a transaction has read or modified.
-/
namespace Stasis.PageLocks
open LockManager Fallible Function
export LockManager (Call)

/-- Where a transaction is. `opening` and `locking` belong to `Tupdate`, `patching` to an update
of many pages, `restoring` to the undo of an update, and `releasing` to the end of an abort, once
or again. -/
inductive Phase where
  | free
  | running
  | loading (page : Int)
  | opening (page : Int)
  | locking (page : Int)
  | patching (page : Int)
  | restoring (page : Int)
  | committing
  | releasing (again : Bool)
deriving DecidableEq, Repr

/-- `logged` says that `prevLSN` is not INVALID_LSN, and `updated` are the pages of the updates
in the log. -/
structure Xact where
  phase : Phase
  aborting : Bool
  logged : Bool
  updated : List Int
  touched : List Int
deriving DecidableEq, Repr

structure Store (Xid : Type) where
  locks : State Xid Int
  xacts : Xid → Xact
  history : Int → List Xid

inductive Move where
  | tbegin
  | load (page : Int)
  | update (page : Int)
  | patch (page : Int)
  | undo (page : Int)
  | lock (op : Op Int)
  | proceed
  | tprepare
  | tcommit
  | tabort
  | forget
deriving DecidableEq, Repr

variable {Xid : Type} [DecidableEq Xid]

namespace Store

def init : Store Xid := ⟨.init, fun _ => ⟨.free, false, false, [], []⟩, fun _ => []⟩

section
variable (s : Store Xid) (xid : Xid)

def setXact (t : Xact) : Store Xid :=
  { s with xacts := update s.xacts xid t }

def setPhase (phase : Phase) : Store Xid :=
  s.setXact xid { s.xacts xid with phase := phase }

/-- A call of the lock manager begins. -/
def callLocks (op : Op Int) (t : Xact) : Except Stop (Store Xid) := do
  let locks ← op.run s.locks xid
  .ok ({ s with locks := locks }.setXact xid t)

/-- A page that was loaded is used. -/
def touch (page : Int) : Store Xid :=
  s.setXact xid { s.xacts xid with phase := .running, touched := page :: (s.xacts xid).touched }

def modify (page : Int) : Store Xid :=
  { s with history := update s.history page (xid :: s.history page) }

/-- The update of the page is in the log. -/
def logUpdate (page : Int) : Store Xid :=
  s.setXact xid { s.xacts xid with
    phase := .running
    logged := true
    updated := page :: (s.xacts xid).updated
    touched := page :: (s.xacts xid).touched }

/-- The transaction calls, and is not inside of another call. -/
def Ready : Prop := (s.xacts xid).phase = .running

end

instance (s : Store Xid) (xid : Xid) : Decidable (s.Ready xid) :=
  inferInstanceAs (Decidable (_ = _))

/-- The call of the lock manager has returned, whatever it has returned. -/
def proceed (s : Store Xid) (xid : Xid) : Except Stop (Store Xid) :=
  match (s.locks.locals xid).call with
  | .idle _ =>
    match (s.xacts xid).phase with
    | .loading page => .ok (s.touch xid page)
    | .opening page =>
      s.callLocks xid (.writeLock page) { s.xacts xid with phase := .locking page }
    | .locking page => .ok ((s.modify xid page).logUpdate xid page)
    | .patching page => .ok ((s.modify xid page).touch xid page)
    | .restoring page => .ok ((s.modify xid page).setPhase xid .running)
    | .committing => .ok (s.setPhase xid .free)
    | .releasing false =>
      s.callLocks xid .commit { s.xacts xid with phase := .releasing true }
    | .releasing true => .ok (s.setPhase xid .free)
    | .free | .running => .error .waits
  | _ => .error .waits

end Store

/-- A step of a call of the lock manager that has begun. -/
def continues : Op Int → Bool
  | .enter | .wake | .timeout | .release _ | .finish => true
  | _ => false

open Store in
def Move.run (s : Store Xid) (xid : Xid) : Move → Except Stop (Store Xid)
  | tbegin =>
    if (s.xacts xid).phase = .free then
      s.callLocks xid .beginTransaction ⟨.running, false, false, [], []⟩
    else .error .waits
  | load page =>
    if s.Ready xid then
      s.callLocks xid (.readLock page) { s.xacts xid with phase := .loading page }
    else .error .waits
  | update page =>
    if s.Ready xid then
      s.callLocks xid (.readLock page) { s.xacts xid with phase := .opening page }
    else .error .waits
  | patch page =>
    if s.Ready xid then
      s.callLocks xid (.readLock page)
        { s.xacts xid with phase := .patching page, logged := true }
    else .error .waits
  | undo page =>
    if s.Ready xid ∧ (s.xacts xid).aborting ∧ page ∈ (s.xacts xid).updated then
      s.callLocks xid (.readLock page) { s.xacts xid with phase := .restoring page }
    else .error .waits
  | lock op => if continues op then s.callLocks xid op (s.xacts xid) else .error .waits
  | proceed => s.proceed xid
  | tprepare =>
    if s.Ready xid then .ok (s.setXact xid { s.xacts xid with logged := true })
    else .error .waits
  | tcommit =>
    if s.Ready xid ∧ ¬(s.xacts xid).aborting then
      if (s.xacts xid).logged then
        s.callLocks xid .commit { s.xacts xid with phase := .committing }
      else .ok (s.setPhase xid .free)
    else .error .waits
  | tabort =>
    if s.Ready xid ∧ ¬(s.xacts xid).aborting then
      if (s.xacts xid).logged then .ok (s.setXact xid { s.xacts xid with aborting := true })
      else .ok (s.setPhase xid .free)
    else .error .waits
  | forget =>
    if s.Ready xid ∧ (s.xacts xid).aborting then
      s.callLocks xid .commit { s.xacts xid with phase := .releasing false }
    else .error .waits

/-- The transaction has begun, and neither its commit nor the end of its abort. -/
def Xact.Active (t : Xact) : Prop :=
  match t.phase with
  | .running | .loading _ | .opening _ | .locking _ | .patching _ | .restoring _ => True
  | .free | .committing | .releasing _ => False

/-- A run in which every move has a property. -/
inductive Reached (Allowed : Store Xid → Xid → Move → Prop) : Store Xid → Prop
  | init : Reached Allowed .init
  | step {s after : Store Xid} (before : Reached Allowed s) (xid : Xid) (move : Move)
      (allowed : Allowed s xid move) (run : move.run s xid = .ok after) : Reached Allowed after

/-- A move that is made if it is allowed. -/
def Store.runAllowed (Allowed : Store Xid → Xid → Move → Prop)
    [∀ s xid move, Decidable (Allowed s xid move)] (s : Store Xid) (step : Xid × Move) :
    Except Stop (Store Xid) :=
  if Allowed s step.1 step.2 then step.2.run s step.1 else .error .fails

theorem Reached.steps [∀ s xid move, Decidable (Allowed s xid move)] (h : Reached Allowed s)
    {l : List (Xid × Move)} (run : l.foldlM (Store.runAllowed Allowed) s = .ok after) :
    Reached Allowed after :=
  foldlM_guarded h (fun _ step _ h allowed => h.step step.1 step.2 allowed) run

/-- What a move makes of its transaction and of the locals that the lock manager has for it, and
the page that it modifies. -/
inductive Moved (l : Local Int) (t : Xact) : Move → Local Int → Xact → Option Int → Prop
  | tbegin {own : Local Int} (free : t.phase = .free) (called : Called l .beginTransaction own) :
      Moved l t .tbegin own ⟨.running, false, false, [], []⟩ none
  | load {own : Local Int} {page : Int} (ready : t.phase = .running)
      (called : Called l (.readLock page) own) :
      Moved l t (.load page) own { t with phase := .loading page } none
  | update {own : Local Int} {page : Int} (ready : t.phase = .running)
      (called : Called l (.readLock page) own) :
      Moved l t (.update page) own { t with phase := .opening page } none
  | patch {own : Local Int} {page : Int} (ready : t.phase = .running)
      (called : Called l (.readLock page) own) :
      Moved l t (.patch page) own { t with phase := .patching page, logged := true } none
  | undo {own : Local Int} {page : Int} (ready : t.phase = .running) (mem : page ∈ t.updated)
      (called : Called l (.readLock page) own) :
      Moved l t (.undo page) own { t with phase := .restoring page } none
  | lock {own : Local Int} {op : Op Int} (goes : continues op = true) (called : Called l op own) :
      Moved l t (.lock op) own t none
  | loaded {ret page : Int} (idle : l.call = .idle ret) (phase : t.phase = .loading page) :
      Moved l t .proceed l { t with phase := .running, touched := page :: t.touched } none
  | opened {own : Local Int} {page : Int} (phase : t.phase = .opening page)
      (called : Called l (.writeLock page) own) :
      Moved l t .proceed own { t with phase := .locking page } none
  | updated {ret page : Int} (idle : l.call = .idle ret) (phase : t.phase = .locking page) :
      Moved l t .proceed l { t with
        phase := .running, logged := true, updated := page :: t.updated,
        touched := page :: t.touched } (some page)
  | patched {ret page : Int} (idle : l.call = .idle ret) (phase : t.phase = .patching page) :
      Moved l t .proceed l { t with phase := .running, touched := page :: t.touched } (some page)
  | restored {ret page : Int} (idle : l.call = .idle ret) (phase : t.phase = .restoring page) :
      Moved l t .proceed l { t with phase := .running } (some page)
  | ended {ret : Int} (idle : l.call = .idle ret)
      (phase : t.phase = .committing ∨ t.phase = .releasing true) :
      Moved l t .proceed l { t with phase := .free } none
  | again {own : Local Int} (phase : t.phase = .releasing false) (called : Called l .commit own) :
      Moved l t .proceed own { t with phase := .releasing true } none
  | prepare (ready : t.phase = .running) : Moved l t .tprepare l { t with logged := true } none
  | commit {own : Local Int} (ready : t.phase = .running) (logged : t.logged = true)
      (called : Called l .commit own) :
      Moved l t .tcommit own { t with phase := .committing } none
  | leave {move : Move} (kind : move = .tcommit ∨ move = .tabort) (ready : t.phase = .running)
      (logged : t.logged = false) : Moved l t move l { t with phase := .free } none
  | abort (ready : t.phase = .running) : Moved l t .tabort l { t with aborting := true } none
  | forget {own : Local Int} (ready : t.phase = .running) (called : Called l .commit own) :
      Moved l t .forget own { t with phase := .releasing false } none

/-- The history after a move that may have modified a page. -/
def Store.modified (s : Store Xid) (xid : Xid) : Option Int → Int → List Xid
  | none => s.history
  | some page => (s.modify xid page).history

/-- A move of a transaction, as the others see it. -/
structure Makes (s : Store Xid) (xid : Xid) (move : Move) (after : Store Xid) (own : Local Int)
    (t : Xact) (page : Option Int) : Prop where
  moved : Moved (s.locks.locals xid) (s.xacts xid) move own t page
  locals : after.locks.locals = update s.locks.locals xid own
  xacts : after.xacts = update s.xacts xid t
  history : after.history = s.modified xid page
  locks : after.locks = s.locks ∨ ∃ op : Op Int, op.run s.locks xid = .ok after.locks

section Inversion
variable {xid : Xid} {Allowed : Store Xid → Xid → Move → Prop}

theorem callLocks_makes (run : s.callLocks xid op t = .ok after)
    (moved : ∀ own, Called (s.locks.locals xid) op own →
      Moved (s.locks.locals xid) (s.xacts xid) move own t none) :
    ∃ own t page, Makes s xid move after own t page := by
  obtain ⟨locks, ran, eq⟩ := bind_eq_ok.mp run
  cases eq
  obtain ⟨own, locals, called⟩ := op.run_steps ran
  exact ⟨own, t, none, moved own called, locals, rfl, rfl, .inr ⟨op, ran⟩⟩

theorem makes_own
    (moved : Moved (s.locks.locals xid) (s.xacts xid) move (s.locks.locals xid) t page) :
    Makes s xid move ({ s with history := s.modified xid page }.setXact xid t)
      (s.locks.locals xid) t page :=
  ⟨moved, (update_eq_self ..).symm, rfl, rfl, .inl rfl⟩

theorem proceed_makes (run : s.proceed xid = .ok after) :
    ∃ own t page, Makes s xid .proceed after own t page := by
  rw [Store.proceed] at run
  split at run
  · next ret idle =>
    split at run
    · next page phase =>
      cases run
      exact ⟨_, _, _, makes_own (.loaded idle phase)⟩
    · next page phase => exact callLocks_makes run fun own called => .opened phase called
    · next page phase =>
      cases run
      exact ⟨_, _, _, makes_own (.updated idle phase)⟩
    · next page phase =>
      cases run
      exact ⟨_, _, _, makes_own (.patched idle phase)⟩
    · next page phase =>
      cases run
      exact ⟨_, _, _, makes_own (.restored idle phase)⟩
    · next phase =>
      cases run
      exact ⟨_, _, _, makes_own (.ended idle (.inl phase))⟩
    · next phase => exact callLocks_makes run fun own called => .again phase called
    · next phase =>
      cases run
      exact ⟨_, _, _, makes_own (.ended idle (.inr phase))⟩
    · cases run
    · cases run
  · cases run

theorem Move.run_makes (run : move.run s xid = .ok after) :
    ∃ own t page, Makes s xid move after own t page := by
  cases move with
  | proceed => exact proceed_makes run
  | tbegin =>
    obtain ⟨free, run⟩ := guarded_eq_ok.mp run
    exact callLocks_makes run fun own called => .tbegin free called
  | load page =>
    obtain ⟨ready, run⟩ := guarded_eq_ok.mp run
    exact callLocks_makes run fun own called => .load ready called
  | update page =>
    obtain ⟨ready, run⟩ := guarded_eq_ok.mp run
    exact callLocks_makes run fun own called => .update ready called
  | patch page =>
    obtain ⟨ready, run⟩ := guarded_eq_ok.mp run
    exact callLocks_makes run fun own called => .patch ready called
  | undo page =>
    obtain ⟨ready, run⟩ := guarded_eq_ok.mp run
    exact callLocks_makes run fun own called => .undo ready.1 ready.2.2 called
  | lock op =>
    obtain ⟨goes, run⟩ := guarded_eq_ok.mp run
    exact callLocks_makes run fun own called => .lock goes called
  | tprepare =>
    obtain ⟨ready, run⟩ := guarded_eq_ok.mp run
    cases run
    exact ⟨_, _, _, makes_own (.prepare ready)⟩
  | tcommit =>
    obtain ⟨ready, run⟩ := guarded_eq_ok.mp run
    split at run
    · next logged =>
      exact callLocks_makes run fun own called => .commit ready.1 logged called
    · next logged =>
      cases run
      exact ⟨_, _, _, makes_own (.leave (.inl rfl) ready.1 (Bool.eq_false_of_not_eq_true logged))⟩
  | tabort =>
    obtain ⟨ready, run⟩ := guarded_eq_ok.mp run
    split at run
    · cases run
      exact ⟨_, _, _, makes_own (.abort ready.1)⟩
    · next logged =>
      cases run
      exact ⟨_, _, _, makes_own (.leave (.inr rfl) ready.1 (Bool.eq_false_of_not_eq_true logged))⟩
  | forget =>
    obtain ⟨ready, run⟩ := guarded_eq_ok.mp run
    exact callLocks_makes run fun own called => .forget ready.1 called

/-- What holds of each transaction and the locals of its thread, if each move keeps it. -/
theorem Reached.invariant {P : Xact → Local Int → Prop}
    (start : P ⟨.free, false, false, [], []⟩ ⟨.absent, .idle 0⟩)
    (keeps : ∀ s xid move own t page, Reached Allowed s → Allowed s xid move →
      Moved (s.locks.locals xid) (s.xacts xid) move own t page →
      P (s.xacts xid) (s.locks.locals xid) → P t own)
    (h : Reached Allowed s) (y : Xid) : P (s.xacts y) (s.locks.locals y) := by
  induction h generalizing y with
  | init => exact start
  | step before xid move allowed run ih =>
    obtain ⟨own, t, page, makes⟩ := move.run_makes run
    rw [makes.xacts, makes.locals]
    by_cases same : y = xid
    · subst same
      rw [update_self, update_self]
      exact keeps _ _ move own t page before allowed makes.moved (ih y)
    · rw [update_of_ne same, update_of_ne same]
      exact ih y

theorem Reached.locks [Fintype Xid] (h : Reached Allowed s) : LockManager.Inv s.locks := by
  induction h with
  | init => exact .init
  | step before xid move allowed run ih =>
    obtain ⟨own, t, page, makes⟩ := move.run_makes run
    cases makes.locks with
    | inl same =>
      rw [same]
      exact ih
    | inr ran =>
      obtain ⟨op, ran⟩ := ran
      exact ih.step ran

end Inversion

/-- The calls of the lock manager that a transaction can be in. -/
def Phase.Expects : Phase → Call Int → Prop
  | .free, _ | .running, _ => False
  | .loading page, call | .opening page, call | .patching page, call | .restoring page, call =>
    call.Asks page .read
  | .locking page, call => call.Asks page .write
  | .committing, call | .releasing _, call => ∃ putBack left, call = .commit putBack left

def Agrees (t : Xact) (l : Local Int) : Prop :=
  (∃ ret, l.call = .idle ret) ∨ t.phase.Expects l.call

section Agreement
variable {own : Local Int} {call : Call Int}

theorem asks_unique (h : call.Asks obj lv) (h' : call.Asks obj' lv') : obj = obj' ∧ lv = lv' := by
  cases call with
  | read o | readWait o | write o level | writeWait o level =>
    exact ⟨h.1.symm.trans h'.1, h.2.trans h'.2.symm⟩
  | idle ret | unlock o | decrement o level | commit putBack left => exact h.elim

theorem Phase.Expects.asks {phase : Phase} (h : phase.Expects call) (asks : call.Asks obj lv)
    (still : next.Asks obj lv) : phase.Expects next := by
  cases phase with
  | free | running => exact h
  | loading page | opening page | patching page | restoring page | locking page =>
    obtain ⟨rfl, rfl⟩ := asks_unique h asks
    exact still
  | committing | releasing again =>
    obtain ⟨putBack, left, rfl⟩ := h
    exact asks.elim

theorem not_idle {ret : Int} (asks : call.Asks obj lv) (idle : call = .idle ret) : False := by
  rw [idle] at asks
  exact asks

/-- Locks are released at the end of a transaction. -/
theorem Agrees.ends (h : Agrees t l) (call : l.call = .commit putBack left) :
    t.phase = .committing ∨ ∃ again, t.phase = .releasing again := by
  cases h with
  | inl idle =>
    obtain ⟨ret, idle⟩ := idle
    cases idle.symm.trans call
  | inr expects =>
    rw [call] at expects
    cases phase : t.phase with
    | committing => exact .inl rfl
    | releasing again => exact .inr ⟨again, rfl⟩
    | _ =>
      rw [phase] at expects
      exact expects.elim

theorem Agrees.lock (h : Agrees t l) (goes : continues op = true) (called : Called l op own) :
    Agrees t own := by
  cases called with
  | waits kind asks still =>
    cases h with
    | inl idle => exact (not_idle asks idle.choose_spec).elim
    | inr expects => exact .inr (expects.asks asks still)
  | granted kind asks levels => exact .inl ⟨0, rfl⟩
  | refused asks => exact .inl ⟨_, rfl⟩
  | finish call => exact .inl ⟨0, rfl⟩
  | release call obj =>
    refine .inr ?_
    rcases h.ends call with phase | ⟨_, phase⟩
    all_goals
      rw [phase]
      exact ⟨_, _, rfl⟩
  | _ => cases goes

theorem called_read (called : Called l (.readLock page) own) :
    (own.call = .idle 0 ∧ (l.recorded page).isSome) ∨ own.call.Asks page .read := by
  cases called with
  | readLock idle same kind =>
    cases kind with
    | inl held => exact .inl held
    | inr asks =>
      subst asks
      exact .inr ⟨rfl, rfl⟩
  | waits kind | granted kind => cases kind <;> contradiction

theorem called_write (called : Called l (.writeLock page) own) :
    (own.call = .idle 0 ∧ l.recorded page = some .write) ∨ own.call.Asks page .write := by
  cases called with
  | writeLock idle same kind =>
    cases kind with
    | inl held => exact .inl held
    | inr asks =>
      obtain ⟨level, rfl⟩ := asks
      exact .inr ⟨rfl, rfl⟩
  | waits kind | granted kind => cases kind <;> contradiction

theorem called_commit (called : Called l .commit own) :
    (∃ locks, l.locks = .table locks ∧ own = ⟨.absent, .commit false locks⟩) ∨
      (l.locks = .absent ∧ own = ⟨.table [], .commit true []⟩) := by
  cases called with
  | commit idle table => exact .inl ⟨_, table, rfl⟩
  | again idle absent => exact .inr ⟨absent, rfl⟩
  | waits kind | granted kind => cases kind <;> contradiction

theorem called_begin (called : Called l .beginTransaction own) :
    own = ⟨if l.locks = .absent then .table [] else l.locks, .idle 0⟩ := by
  cases called with
  | beginTransaction idle => rfl
  | waits kind | granted kind => cases kind <;> contradiction

theorem Agrees.idle (h : Agrees t l) (phase : t.phase = .running ∨ t.phase = .free) :
    ∃ ret, l.call = .idle ret := by
  refine h.resolve_right fun expects => ?_
  cases phase with
  | inl eq | inr eq =>
    rw [eq] at expects
    exact expects

theorem Agrees.moved (h : Agrees t l) (m : Moved l t move own after modified) :
    Agrees after own := by
  cases m with
  | tbegin free called =>
    rw [called_begin called]
    exact .inl ⟨0, rfl⟩
  | load ready called | update ready called | patch ready called | undo ready mem called =>
    exact (called_read called).imp (fun held => ⟨0, held.1⟩) id
  | opened phase called => exact (called_write called).imp (fun held => ⟨0, held.1⟩) id
  | again phase called | commit ready logged called | forget ready called =>
    refine .inr ?_
    rcases called_commit called with ⟨locks, _, rfl⟩ | ⟨_, rfl⟩
    · exact ⟨_, _, rfl⟩
    · exact ⟨_, _, rfl⟩
  | lock goes called => exact h.lock goes called
  | loaded idle phase | updated idle phase | patched idle phase | restored idle phase
  | ended idle phase => exact .inl ⟨_, idle⟩
  | prepare ready | abort ready => exact h
  | leave kind ready logged => exact .inl (h.idle (.inl ready))

theorem Reached.agrees {Xid : Type} [DecidableEq Xid] {Allowed : Store Xid → Xid → Move → Prop}
    {s : Store Xid} (h : Reached Allowed s) (xid : Xid) :
      Agrees (s.xacts xid) (s.locks.locals xid) :=
  h.invariant (.inl ⟨0, rfl⟩) (fun _ _ _ _ _ _ _ _ moved agrees => agrees.moved moved) xid

end Agreement

end Stasis.PageLocks
