import Stasis.LockManager.Invariant

/-!
The lock table over whole runs.

Transactions only unlock what they have, and commit what they have begun. Then the counters of
an object say who has it whenever all calls wait, a writer is alone, a lock is destroyed only
when nobody uses it, and a request that is refused leaves no trace in what is recorded.
-/
namespace Stasis.LockManager
open Tally Fallible Function
variable {Xid Obj : Type} [DecidableEq Xid] [DecidableEq Obj]

/-- What a transaction asks for: to release what it has, and to commit once it has begun. -/
def Op.Allowed (s : State Xid Obj) (xid : Xid) : Op Obj → Prop
  | unlock obj => ((s.locals xid).recorded obj).isSome
  | commit => (s.locals xid).locks ≠ .absent
  | _ => True

instance (s : State Xid Obj) (xid : Xid) : (op : Op Obj) → Decidable (op.Allowed s xid)
  | .unlock obj => inferInstanceAs (Decidable (((s.locals xid).recorded obj).isSome))
  | .commit => inferInstanceAs (Decidable ((s.locals xid).locks ≠ .absent))
  | .beginTransaction | .readLock _ | .writeLock _ | .enter | .wake | .timeout | .remove
  | .decrement | .release _ | .finish => isTrue trivial

inductive Reached : State Xid Obj → Prop
  | init : Reached .init
  | step {s after : State Xid Obj} (before : Reached s) (xid : Xid) (op : Op Obj)
      (allowed : op.Allowed s xid) (run : op.run s xid = .ok after) : Reached after

/-- A step that is taken if it is allowed. -/
def State.runAllowed (s : State Xid Obj) (step : Xid × Op Obj) : Except Stop (State Xid Obj) :=
  if step.2.Allowed s step.1 then step.2.run s step.1 else .error .fails

theorem Reached.steps (h : Reached s) {l : List (Xid × Op Obj)}
    (run : l.foldlM State.runAllowed s = .ok after) : Reached after :=
  foldlM_guarded h (fun _ step _ h allowed => h.step step.1 step.2 allowed) run

/-- A transaction whose table was not freed, and that unlocks what it has. -/
structure Sound (l : Local Obj) : Prop where
  live : l.locks ≠ .freed
  unlock : ∀ obj, l.call = .unlock obj → (l.recorded obj).isSome
  commit : ∀ left, l.call ≠ .commit true left

/-- A request that has not returned. -/
def Call.Requests : Call Obj → Prop
  | .read _ | .readWait _ | .write _ _ | .writeWait _ _ => True
  | _ => False

/-- Nobody is between two steps of a call, unless it waits. -/
def Call.Waits : Call Obj → Prop
  | .idle _ | .readWait _ | .writeWait _ _ => True
  | _ => False

instance : (call : Call Obj) → Decidable call.Waits
  | .idle _ | .readWait _ | .writeWait _ _ => isTrue trivial
  | .read _ | .write _ _ | .unlock _ | .decrement _ _ | .commit _ _ => isFalse id

def Quiet (s : State Xid Obj) : Prop := ∀ xid, (s.locals xid).call.Waits

section Holders
variable [Fintype Xid]

instance (s : State Xid Obj) : Decidable (Quiet s) :=
  inferInstanceAs (Decidable (∀ xid, (s.locals xid).call.Waits))

/-- Those for whom the object is recorded, and those for whom it is recorded for writing. -/
def holders (s : State Xid Obj) (obj : Obj) : Finset Xid :=
  Finset.univ.filter fun xid => ((s.locals xid).recorded obj).isSome

def writeHolders (s : State Xid Obj) (obj : Obj) : Finset Xid :=
  Finset.univ.filter fun xid => (s.locals xid).recorded obj = some .write

end Holders

/-- The request that `xid` began in `s0` has led to the state, in which it may have returned. -/
inductive Requesting (xid : Xid) (s0 : State Xid Obj) : State Xid Obj → Prop
  | start {s : State Xid Obj} (op : Op Obj)
      (request : ∃ obj, op = .readLock obj ∨ op = .writeLock obj) (run : op.run s0 xid = .ok s) :
      Requesting xid s0 s
  | step {s after : State Xid Obj} (before : Requesting xid s0 s)
      (going : (s.locals xid).call.Requests) (x : Xid) (op : Op Obj) (run : op.run s x = .ok after) :
      Requesting xid s0 after

section Frame
variable {s after : State Xid Obj} {xid : Xid} {obj : Obj}

/-- A request for an object, at a level. -/
def Call.Asks (obj : Obj) (lv : Level) : Call Obj → Prop
  | .read o | .readWait o => o = obj ∧ lv = .read
  | .write o _ | .writeWait o _ => o = obj ∧ lv = .write
  | _ => False

/-- What a step makes of the locals of its transaction. A request waits, is granted or is
refused; a commit takes the table away, or puts a new one there. -/
inductive Called (l : Local Obj) : Op Obj → Local Obj → Prop
  | beginTransaction {ret : Int} (idle : l.call = .idle ret) :
      Called l .beginTransaction ⟨if l.locks = .absent then .table [] else l.locks, .idle 0⟩
  | readLock {ret : Int} (idle : l.call = .idle ret) {obj : Obj} {locks : XidLocks Obj}
      (same : ∀ o, l.recorded o = locks.level o) {call : Call Obj}
      (kind : call = .idle 0 ∧ (l.recorded obj).isSome ∨ call = .read obj) :
      Called l (.readLock obj) ⟨.table locks, call⟩
  | writeLock {ret : Int} (idle : l.call = .idle ret) {obj : Obj} {locks : XidLocks Obj}
      (same : ∀ o, l.recorded o = locks.level o) {call : Call Obj}
      (kind : call = .idle 0 ∧ l.recorded obj = some .write ∨ ∃ level, call = .write obj level) :
      Called l (.writeLock obj) ⟨.table locks, call⟩
  | waits {op : Op Obj} (kind : op = .enter ∨ op = .wake) {obj : Obj} {lv : Level}
      (asks : l.call.Asks obj lv) {call : Call Obj} (still : call.Asks obj lv) :
      Called l op ⟨l.locks, call⟩
  | granted {op : Op Obj} (kind : op = .enter ∨ op = .wake) {obj : Obj} {lv : Level}
      (asks : l.call.Asks obj lv) {locks : XidLocks Obj}
      (levels : LocalInv l → ∀ o, locks.level o = if o = obj then some lv else l.recorded o) :
      Called l op ⟨.table locks, .idle 0⟩
  | refused {obj : Obj} {lv : Level} (asks : l.call.Asks obj lv) :
      Called l .timeout ⟨l.locks, .idle lladdDeadlock⟩
  | unlock {ret : Int} (idle : l.call = .idle ret) {locks : XidLocks Obj}
      (same : ∀ o, l.recorded o = locks.level o) (obj : Obj) :
      Called l (.unlock obj) ⟨.table locks, .unlock obj⟩
  | remove {obj : Obj} (call : l.call = .unlock obj) (locks : XidLocks Obj) (level : Level) :
      Called l .remove ⟨.table locks, .decrement obj level⟩
  | decrement {obj : Obj} {level : Level} (call : l.call = .decrement obj level) :
      Called l .decrement ⟨l.locks, .idle 0⟩
  | commit {ret : Int} (idle : l.call = .idle ret) {locks : XidLocks Obj}
      (table : l.locks = .table locks) : Called l .commit ⟨.absent, .commit false locks⟩
  | again {ret : Int} (idle : l.call = .idle ret) (absent : l.locks = .absent) :
      Called l .commit ⟨.table [], .commit true []⟩
  | release {putBack : Bool} {left : XidLocks Obj} (call : l.call = .commit putBack left)
      (obj : Obj) : Called l (.release obj) ⟨l.locks, .commit putBack (left.remove obj)⟩
  | finish {putBack : Bool} (call : l.call = .commit putBack []) :
      Called l .finish ⟨if putBack then .freed else l.locks, .idle 0⟩

/-- A step of a transaction that calls the lock manager. -/
def Steps (s : State Xid Obj) (xid : Xid) (op : Op Obj) (after : State Xid Obj) : Prop :=
  ∃ own, after.locals = update s.locals xid own ∧ Called (s.locals xid) op own

variable {l : Local Obj}

theorem grantRead_steps (kind : op = .enter ∨ op = .wake) {l : Lock}
    (call : (s.locals xid).call = .read obj ∨ (s.locals xid).call = .readWait obj)
    (run : s.grantRead xid obj l = .ok after) : Steps s xid op after := by
  obtain ⟨locks, rfl, levels⟩ := grantRead_ok run
  have asks : (s.locals xid).call.Asks obj .read := by
    cases call with
    | inl eq | inr eq =>
      rw [eq]
      exact ⟨rfl, rfl⟩
  exact ⟨_, rfl, .granted kind asks fun _ => levels⟩

theorem grantWrite_steps (kind : op = .enter ∨ op = .wake) {l : Lock}
    (call : (s.locals xid).call = .write obj level ∨ (s.locals xid).call = .writeWait obj level)
    (run : s.grantWrite xid obj level l = .ok after) : Steps s xid op after := by
  obtain ⟨locks, rfl, levels⟩ := grantWrite_ok run
  have asks : (s.locals xid).call.Asks obj .write := by
    cases call with
    | inl eq | inr eq =>
      rw [eq]
      exact ⟨rfl, rfl⟩
  refine ⟨_, rfl, .granted kind asks fun inv => ?_⟩
  obtain ⟨had, notYet⟩ := inv.recorded_write call
  exact levels had notYet

theorem enter_steps (run : s.enter xid = .ok after) : Steps s xid .enter after := by
  rw [State.enter] at run
  split at run
  · next obj call =>
    simp only at run
    split at run
    · cases run
      exact ⟨_, rfl, .waits (.inl rfl) (by rw [call]; exact ⟨rfl, rfl⟩) ⟨rfl, rfl⟩⟩
    · exact grantRead_steps (.inl rfl) (.inl call) run
  · next obj level call =>
    simp only at run
    split at run
    · cases run
      exact ⟨_, rfl, .waits (.inl rfl) (by rw [call]; exact ⟨rfl, rfl⟩) ⟨rfl, rfl⟩⟩
    · exact grantWrite_steps (.inl rfl) (.inl call) run
  · cases run

theorem wake_steps (run : s.wake xid = .ok after) : Steps s xid .wake after := by
  have waits : ∀ {obj : Obj} {lv : Level}, (s.locals xid).call.Asks obj lv → Steps s xid .wake s :=
    fun asks => ⟨s.locals xid, (update_eq_self ..).symm, .waits (.inr rfl) asks asks⟩
  rw [State.wake] at run
  split at run
  · next obj call =>
    split at run
    · split at run
      · cases run
        exact waits (by rw [call]; exact ⟨rfl, rfl⟩)
      · exact grantRead_steps (.inr rfl) (.inr call) run
    · cases run
  · next obj level call =>
    split at run
    · split at run
      · cases run
        exact waits (by rw [call]; exact ⟨rfl, rfl⟩)
      · exact grantWrite_steps (.inr rfl) (.inr call) run
    · cases run
  · cases run

theorem timeout_steps (run : s.timeout xid = .ok after) : Steps s xid .timeout after := by
  rw [State.timeout] at run
  split at run
  · next obj call =>
    split at run
    · cases run
      exact ⟨_, rfl, .refused (by rw [call]; exact ⟨rfl, rfl⟩)⟩
    · cases run
  · next obj level call =>
    split at run
    · cases run
      exact ⟨_, rfl, .refused (by rw [call]; exact ⟨rfl, rfl⟩)⟩
    · cases run
  · cases run

theorem release_steps (run : s.release xid obj = .ok after) : Steps s xid (.release obj) after := by
  rw [State.release] at run
  split at run
  · next putBack left call =>
    split at run
    · obtain ⟨mid, dec, eq⟩ := bind_eq_ok.mp run
      cases eq
      refine ⟨_, ?_, .release call obj⟩
      rw [State.setCall, State.setLocal, (decrementLock_ok dec).1]
    · cases run
  · cases run

theorem decrement_steps (run : s.decrement xid = .ok after) : Steps s xid .decrement after := by
  rw [State.decrement] at run
  split at run
  · next o level call =>
    obtain ⟨mid, dec, eq⟩ := bind_eq_ok.mp run
    cases eq
    refine ⟨_, ?_, .decrement call⟩
    rw [State.setCall, State.setLocal, (decrementLock_ok dec).1]
  · cases run

theorem Op.run_steps (run : op.run s xid = .ok after) : Steps s xid op after := by
  cases op with
  | enter => exact enter_steps run
  | wake => exact wake_steps run
  | timeout => exact timeout_steps run
  | release obj => exact release_steps run
  | decrement => exact decrement_steps run
  | beginTransaction =>
    simp only [Op.run, State.beginTransaction] at run
    split at run
    · next ret call absent =>
      cases run
      refine ⟨_, rfl, ?_⟩
      have begun := Called.beginTransaction call
      rw [if_pos absent] at begun
      exact begun
    · next ret call there =>
      cases run
      refine ⟨_, rfl, ?_⟩
      have begun := Called.beginTransaction call
      rw [if_neg fun absent => there absent] at begun
      exact begun
    · cases run
  | readLock obj =>
    obtain ⟨locks, opened, run⟩ := bind_eq_ok.mp run
    obtain ⟨⟨ret, call⟩, recorded⟩ := locksOf_ok opened
    split at run
    · next held =>
      cases run
      exact ⟨_, rfl, .readLock call recorded (.inl ⟨rfl, by rw [recorded]; exact held⟩)⟩
    · cases run
      exact ⟨_, rfl, .readLock call recorded (.inr rfl)⟩
  | writeLock obj =>
    obtain ⟨locks, opened, run⟩ := bind_eq_ok.mp run
    obtain ⟨⟨ret, call⟩, recorded⟩ := locksOf_ok opened
    split at run
    · next held =>
      cases run
      exact ⟨_, rfl, .writeLock call recorded (.inl ⟨rfl, by rw [recorded]; exact held⟩)⟩
    · cases run
      exact ⟨_, rfl, .writeLock call recorded (.inr ⟨_, rfl⟩)⟩
  | unlock obj =>
    obtain ⟨locks, opened, run⟩ := bind_eq_ok.mp run
    obtain ⟨⟨ret, call⟩, recorded⟩ := locksOf_ok opened
    cases run
    exact ⟨_, rfl, .unlock call recorded obj⟩
  | remove =>
    simp only [Op.run, State.remove] at run
    split at run
    · next obj locks call table =>
      split at run
      · cases run
        exact ⟨_, rfl, .remove call _ _⟩
      · cases run
    · cases run
  | commit =>
    simp only [Op.run, State.commit] at run
    split at run
    · next ret locks call table =>
      cases run
      exact ⟨_, rfl, .commit call table⟩
    · next ret call absent =>
      cases run
      exact ⟨_, rfl, .again call absent⟩
    · cases run
    · cases run
  | finish =>
    simp only [Op.run, State.finish] at run
    split at run
    · next putBack call =>
      cases run
      exact ⟨_, rfl, .finish call⟩
    · cases run

omit [DecidableEq Xid] in
theorem Sound.idle (live : l.locks ≠ .freed) {ret : Int} (idle : l.call = .idle ret) : Sound l := by
  refine ⟨live, fun _ eq => ?_, fun _ eq => ?_⟩
  · rw [idle] at eq
    cases eq
  · rw [idle] at eq
    cases eq

omit [DecidableEq Xid] in
theorem Called.sound (h : Called (s.locals xid) op own) (sound : Sound (s.locals xid))
    (allowed : op.Allowed s xid) : Sound own := by
  cases h with
  | beginTransaction idle =>
    refine .idle ?_ rfl
    split
    · nofun
    · exact sound.live
  | readLock idle same kind =>
    rcases kind with ⟨rfl, _⟩ | rfl
    · exact .idle nofun rfl
    · exact ⟨nofun, nofun, nofun⟩
  | writeLock idle same kind =>
    rcases kind with ⟨rfl, _⟩ | ⟨level, rfl⟩
    · exact .idle nofun rfl
    · exact ⟨nofun, nofun, nofun⟩
  | waits kind asks still =>
    refine ⟨sound.live, fun o eq => ?_, fun left eq => ?_⟩
    · cases eq
      exact still.elim
    · cases eq
      exact still.elim
  | granted kind asks levels => exact .idle nofun rfl
  | refused asks => exact .idle sound.live rfl
  | unlock idle same obj =>
    refine ⟨nofun, fun o eq => ?_, nofun⟩
    cases eq
    have held : ((s.locals xid).recorded obj).isSome := allowed
    rw [same] at held
    exact held
  | remove call locks level => exact ⟨nofun, nofun, nofun⟩
  | decrement call => exact .idle sound.live rfl
  | commit idle table => exact ⟨nofun, nofun, nofun⟩
  | again idle absent => exact absurd absent allowed
  | @release putBack left call obj =>
    refine ⟨sound.live, nofun, fun left' eq => ?_⟩
    cases eq
    exact sound.commit left call
  | @finish putBack call =>
    refine .idle ?_ rfl
    cases putBack with
    | false => exact sound.live
    | true => exact absurd call (sound.commit [])

omit [DecidableEq Xid] in
theorem Called.request (h : Called l op own) (requests : l.call.Requests) :
    own.call = .idle 0 ∨ ∀ obj, own.recorded obj = l.recorded obj := by
  cases h with
  | waits kind asks still => exact .inr fun _ => rfl
  | granted kind asks levels => exact .inl rfl
  | refused asks => exact .inr fun _ => rfl
  | beginTransaction call | decrement call | finish call => exact .inl rfl
  | readLock call same kind | writeLock call same kind => exact .inr fun o => (same o).symm
  | unlock call same obj => exact .inr fun o => (same o).symm
  | release call obj => exact .inr fun _ => rfl
  | remove call locks level | commit call table | again call absent =>
    rw [call] at requests
    exact requests.elim

omit [DecidableEq Xid] in
theorem Called.starts (h : Called l op own) (request : op = .readLock obj ∨ op = .writeLock obj)
    (o : Obj) : own.recorded o = l.recorded o := by
  rcases request with rfl | rfl
  · cases h with
    | readLock idle same kind => exact (same o).symm
    | waits kind | granted kind => cases kind <;> contradiction
  · cases h with
    | writeLock idle same kind => exact (same o).symm
    | waits kind | granted kind => cases kind <;> contradiction

theorem Requesting.recorded {s0 : State Xid Obj} (h : Requesting xid s0 s) :
    (s.locals xid).call = .idle 0 ∨ ∀ o, (s.locals xid).recorded o = (s0.locals xid).recorded o :=
      by
  induction h with
  | start op request run =>
    obtain ⟨obj, request⟩ := request
    obtain ⟨own, locals, called⟩ := op.run_steps run
    refine .inr fun o => ?_
    rw [locals, update_self]
    exact called.starts request o
  | step before going x op run ih =>
    have same := ih.resolve_left fun idle => by rw [idle] at going; exact going
    obtain ⟨own, locals, called⟩ := op.run_steps run
    rw [locals]
    by_cases other : xid = x
    · subst other
      rw [update_self]
      cases called.request going with
      | inl granted => exact .inl granted
      | inr kept => exact .inr fun o => (kept o).trans (same o)
    · rw [update_of_ne other]
      exact .inr same

end Frame

section Safety
variable [Fintype Xid] {s : State Xid Obj}

omit [DecidableEq Xid] [DecidableEq Obj] [Fintype Xid] in
theorem locksOf_ne_fails (sound : (s.locals xid).locks ≠ .freed) :
      s.locksOf xid ≠ .error .fails := by
  rw [State.locksOf]
  split
  · simp
  · simp
  · next freed => exact absurd freed sound
  · simp

omit [DecidableEq Xid] in
theorem Inv.waited (h : Inv s) (waits : (s.locals xid).call.waitsFor obj = true) :
    s.ridLockTable obj ≠ none := by
  intro absent
  have active := (h.locks obj).active
  have zero : (s.lockOf obj).active = 0 := by
    rw [State.lockOf, absent]
    rfl
  have own : (s.locals xid).active obj = 1 := by
    rw [Local.active, waits]
    rfl
  have le := le_tally (f := Local.active obj) (g := s.locals) (fun y => one_nonneg _) xid
  omega

omit [DecidableEq Xid] in
theorem Inv.counted (h : Inv s) (pending : (s.locals xid).call.pending obj = some level) :
    s.ridLockTable obj ≠ none := by
  intro absent
  have readers := (h.locks obj).readers
  have zero : (s.lockOf obj).readers = 0 := by
    rw [State.lockOf, absent]
    rfl
  have own : (s.locals xid).readers obj = one (((s.locals xid).recorded obj).isSome) + 1 := by
    rw [Local.readers, pending]
    rfl
  have nonneg := one_nonneg (((s.locals xid).recorded obj).isSome)
  have le := le_tally (f := Local.readers obj) (g := s.locals) (Local.readers_nonneg obj <| s.locals ·) xid
  omega

omit [DecidableEq Xid] in
theorem Inv.decrementLock_ne_fails (h : Inv s)
    (pending : (s.locals xid).call.pending obj = some level) :
    s.decrementLock obj level ≠ .error .fails := by
  rw [State.decrementLock]
  split
  · next absent => exact absurd absent (h.counted pending)
  · simp

theorem Inv.run_ne_fails (h : Inv s) (sound : Sound (s.locals xid)) {op : Op Obj}
    (allowed : op.Allowed s xid) : op.run s xid ≠ .error .fails := by
  have own := h.locals xid
  have locksOf : s.locksOf xid ≠ .error .fails := locksOf_ne_fails sound.live
  cases op with
  | beginTransaction =>
    simp only [Op.run, State.beginTransaction]
    split <;> simp
  | readLock obj | writeLock obj =>
    refine bind_ne_error locksOf fun locks => ?_
    split <;> simp
  | unlock obj => exact bind_ne_error locksOf (by simp)
  | enter =>
    simp only [Op.run, State.enter]
    rw [LocalInv] at own
    split
    · next obj call =>
      rw [call] at own
      obtain ⟨locks, table, _⟩ := own
      split
      · simp
      · simp only [State.grantRead, table]
        simp
    · next obj level call =>
      rw [call] at own
      obtain ⟨locks, table, _⟩ := own
      split
      · simp
      · simp only [State.grantWrite, table]
        simp
    · simp
  | wake =>
    simp only [Op.run, State.wake]
    rw [LocalInv] at own
    split
    · next obj call =>
      rw [call] at own
      obtain ⟨locks, table, _⟩ := own
      split
      · split
        · simp
        · simp only [State.grantRead, table]
          simp
      · next absent => exact absurd absent (h.waited (by rw [call]; exact decide_eq_true rfl))
    · next obj level call =>
      rw [call] at own
      obtain ⟨locks, table, _⟩ := own
      split
      · split
        · simp
        · simp only [State.grantWrite, table]
          simp
      · next absent => exact absurd absent (h.waited (by rw [call]; exact decide_eq_true rfl))
    · simp
  | timeout =>
    simp only [Op.run, State.timeout]
    split
    · next obj call =>
      split
      · simp
      · next absent => exact absurd absent (h.waited (by rw [call]; exact decide_eq_true rfl))
    · next obj level call =>
      split
      · simp
      · next absent => exact absurd absent (h.waited (by rw [call]; exact decide_eq_true rfl))
    · simp
  | remove =>
    simp only [Op.run, State.remove]
    split
    · next obj locks call table =>
      split
      · simp
      · next gone =>
        have held := sound.unlock obj call
        rw [Local.recorded, table] at held
        have held : (locks.level obj).isSome := held
        rw [gone] at held
        cases held
    · simp
  | decrement =>
    simp only [Op.run, State.decrement]
    split
    · next obj level call =>
      exact bind_ne_error (h.decrementLock_ne_fails (by rw [call]; exact if_pos rfl)) (by simp)
    · simp
  | commit =>
    simp only [Op.run, State.commit]
    split
    · simp
    · simp
    · next freed => exact absurd freed sound.live
    · simp
  | release obj =>
    simp only [Op.run, State.release]
    split
    · next putBack left call =>
      split
      · next level held =>
        exact bind_ne_error (h.decrementLock_ne_fails (by rw [call]; exact held)) (by simp)
      · simp
    · simp
  | finish =>
    simp only [Op.run, State.finish]
    split <;> simp

theorem Reached.inv (h : Reached s) : Inv s := by
  induction h with
  | init => exact .init
  | step _ xid op _ run ih => exact ih.step run

omit [Fintype Xid] in
theorem Reached.sound (h : Reached s) (xid : Xid) : Sound (s.locals xid) := by
  induction h with
  | init => exact .idle nofun rfl
  | step _ x op allowed run ih =>
    obtain ⟨own, locals, called⟩ := op.run_steps run
    rw [locals]
    refine Updates.update_cases (P := Sound) (fun same => ?_) fun _ => ih
    subst same
    exact called.sound ih allowed

omit [DecidableEq Xid] in
theorem Inv.absent (h : Inv s) (absent : s.ridLockTable obj = none) (y : Xid) :
    (s.locals y).recorded obj = none ∧ (s.locals y).call.waitsFor obj = false := by
  have new : s.lockOf obj = Lock.new := by
    rw [State.lockOf, absent]
    rfl
  have counts := h.locks obj
  have readers : 0 = tally (Local.readers obj) s.locals := by rw [← counts.readers, new]; rfl
  have le := le_tally (f := Local.readers obj) (g := s.locals) (Local.readers_nonneg obj <| s.locals ·) y
  refine ⟨?_, ?_⟩
  · cases held : (s.locals y).recorded obj with
    | none => rfl
    | some level =>
      have own : (s.locals y).readers obj =
          1 + one (((s.locals y).call.pending obj).isSome) := by
        rw [Local.readers, held]
        rfl
      have nonneg := one_nonneg (((s.locals y).call.pending obj).isSome)
      omega
  · cases waits : (s.locals y).call.waitsFor obj with
    | false => rfl
    | true => exact absurd absent (h.waited waits)

omit [DecidableEq Xid] in
theorem Inv.counts (h : Inv s) (quiet : Quiet s) (obj : Obj) :
    (s.lockOf obj).readers = (holders s obj).card ∧
      (s.lockOf obj).writers = (writeHolders s obj).card := by
  have settled : ∀ y, (s.locals y).call.pending obj = none := fun y => by
    have waits := quiet y
    revert waits
    cases (s.locals y).call with
    | idle _ | readWait _ | writeWait _ _ => exact fun _ => rfl
    | _ => exact fun waits => waits.elim
  have counts := h.locks obj
  refine ⟨counts.readers.trans (tally_card _ fun y => ?_), counts.writers.trans (tally_card _ fun y => ?_)⟩
  · rw [Local.readers, settled]
    exact Int.add_zero _
  · rw [Local.writers, settled]
    exact Int.add_zero _

end Safety

/-- In every order of requests, releases and commits, with waits that end at any moment. -/
theorem lock_table_counts [Fintype Xid] {s : State Xid Obj} (h : Reached s) :
    (Quiet s → ∀ obj, (s.lockOf obj).readers = (holders s obj).card ∧
      (s.lockOf obj).writers = (writeHolders s obj).card) ∧
    (∀ obj, (s.lockOf obj).writers = 0 ∨ (s.lockOf obj).writers = 1 ∧ (s.lockOf obj).readers = 1) ∧
    (∀ xid s0, Requesting xid s0 s → (s.locals xid).call = .idle lladdDeadlock →
      ∀ obj, (s.locals xid).recorded obj = (s0.locals xid).recorded obj) ∧
    ∀ xid (op : Op Obj), op.Allowed s xid → op.run s xid ≠ .error .fails ∧
      ∀ after, op.run s xid = .ok after →
        (∀ y, y ≠ xid → after.locals y = s.locals y) ∧
        ∀ obj, s.ridLockTable obj ≠ none → after.ridLockTable obj = none →
          ∀ y, (after.locals y).recorded obj = none ∧ (after.locals y).call.waitsFor obj = false := by
  have inv := h.inv
  refine ⟨inv.counts, fun obj => (inv.locks obj).exclusive, fun xid s0 request refused => ?_,
    fun xid op allowed => ⟨inv.run_ne_fails (h.sound xid) allowed, fun after run => ⟨fun y other => ?_,
      fun obj _ gone => (inv.step run).absent gone⟩⟩⟩
  · refine request.recorded.resolve_left fun granted => ?_
    rw [refused] at granted
    cases granted
  · obtain ⟨own, locals, _⟩ := op.run_steps run
    rw [locals, update_of_ne other]

/-- One transaction reads an object, and another one waits to write it. -/
theorem lock_table_counts_two : ∃ s : State (Fin 2) Nat, Quiet s ∧ (holders s 7).card = 1 ∧
    (s.lockOf 7).readers = 1 ∧ (s.locals 1).call = .writeWait 7 none := by
  obtain ⟨s, run, quiet, card, call⟩ : ∃ s : State (Fin 2) Nat, [(0, .beginTransaction),
      (1, .beginTransaction), (0, .readLock 7), (0, .enter), (1, .writeLock 7), (1, .enter)].foldlM
        State.runAllowed .init = .ok s ∧
      Quiet s ∧ (holders s 7).card = 1 ∧ (s.locals 1).call = .writeWait 7 none := by
    decide +kernel
  have counts := (lock_table_counts (Reached.init.steps run)).1 quiet 7
  exact ⟨s, quiet, card, by rw [counts.1, card]; rfl, call⟩

/-- The condition for which a request that waits goes on waiting when it is woken. -/
def State.blocked (s : State Xid Obj) (xid : Xid) : Prop :=
  match (s.locals xid).call with
  | .readWait obj => (s.lockOf obj).writers ≠ 0
  | .writeWait obj level => mustWait (s.lockOf obj) level
  | _ => False

/-- The states that a run without wake-ups leads to from `s0`, until the call of `xid` returns. -/
inductive Unwoken (xid : Xid) (s0 : State Xid Obj) : State Xid Obj → Prop
  | start : Unwoken xid s0 s0
  | step {s after : State Xid Obj} (before : Unwoken xid s0 s)
      (going : (s.locals xid).call.Requests) (x : Xid) (op : Op Obj) (unwoken : op ≠ .wake)
      (run : op.run s x = .ok after) : Unwoken xid s0 after

theorem wait_only_refused {s after : State Xid Obj} {xid : Xid}
    (waits : (s.locals xid).call.waitsFor obj = true) {op : Op Obj} (unwoken : op ≠ .wake)
    (run : op.run s xid = .ok after) :
    after.locals xid = ⟨(s.locals xid).locks, .idle lladdDeadlock⟩ := by
  have entered : op ≠ .enter := by
    rintro rfl
    simp only [Op.run, State.enter] at run
    split at run
    · next call => simp [call, Call.waitsFor] at waits
    · next call => simp [call, Call.waitsFor] at waits
    · cases run
  obtain ⟨own, locals, called⟩ := op.run_steps run
  rw [locals, update_self]
  cases called with
  | refused asks => rfl
  | waits kind | granted kind => exact (kind.elim entered unwoken).elim
  | beginTransaction call | readLock call | writeLock call | unlock call | remove call
  | decrement call | commit call | again call | release call | finish call =>
    rw [call] at waits
    cases waits

/-- Without wake-ups a request that waits goes on waiting, whatever the others release, until it
is refused; nothing is recorded for it. -/
theorem unwoken_refused {s0 s : State Xid Obj} (xid : Xid) (obj : Obj)
    (waits : (s0.locals xid).call.waitsFor obj = true) (run : Unwoken xid s0 s) :
    s.locals xid = s0.locals xid ∨
      s.locals xid = ⟨(s0.locals xid).locks, .idle lladdDeadlock⟩ := by
  induction run with
  | start => exact .inl rfl
  | step before going x op unwoken run ih =>
    have same := ih.resolve_right fun refused => by rw [refused] at going; exact going
    by_cases own : xid = x
    · subst own
      rw [← same] at waits ⊢
      exact .inr (wait_only_refused waits unwoken run)
    · obtain ⟨_, locals, _⟩ := op.run_steps run
      rw [locals, update_of_ne own]
      exact .inl same

/-- A transaction waits to read what another one has written. -/
def waiting : Except Stop (State (Fin 2) Nat) :=
  [(0, .writeLock 7), (0, .enter), (1, .readLock 7), (1, .enter)].foldlM State.runAllowed .init

/-- It is refused after the other one has asked for its lock again. -/
theorem unwoken_refused_reader : ∃ s0 after : State (Fin 2) Nat, waiting = .ok s0 ∧
    Unwoken 1 s0 after ∧ after.locals 1 = ⟨(s0.locals 1).locks, .idle lladdDeadlock⟩ := by
  obtain ⟨s0, run, call, s, asked, call', after, refused, idle⟩ : ∃ s0, waiting = .ok s0 ∧
      (s0.locals 1).call = .readWait 7 ∧ ∃ s, (Op.writeLock 7).run s0 0 = .ok s ∧
        (s.locals 1).call = .readWait 7 ∧ ∃ after, Op.timeout.run s 1 = .ok after ∧
          (after.locals 1).call = .idle lladdDeadlock := by
    decide +kernel
  have asks : Unwoken 1 s0 s := .step .start (by rw [call]; trivial) 0 (.writeLock 7) nofun asked
  have runs : Unwoken 1 s0 after := .step asks (by rw [call']; trivial) 1 .timeout nofun refused
  refine ⟨s0, after, run, runs, (unwoken_refused 1 7 (by rw [call]; rfl) runs).resolve_left ?_⟩
  intro same
  rw [same, call] at idle
  cases idle

/-- The other one unlocks the object, so that nobody has it. -/
theorem waiter_times_out : ∃ s0 s after : State (Fin 2) Nat, waiting = .ok s0 ∧
    [(0, .unlock 7), (0, .remove), (0, .decrement)].foldlM State.runAllowed s0 = .ok s ∧
    (s.locals 1).call = .readWait 7 ∧ ¬ s.blocked 1 ∧ Op.timeout.run s 1 = .ok after ∧
      (after.locals 1).call = .idle lladdDeadlock := by
  obtain ⟨s0, start, s, run, call, writers, after, timeout⟩ : ∃ s0, waiting = .ok s0 ∧
      ∃ s, [(0, .unlock 7), (0, .remove), (0, .decrement)].foldlM State.runAllowed s0 = .ok s ∧
        (s.locals 1).call = .readWait 7 ∧ (s.lockOf 7).writers = 0 ∧
          ∃ after, Op.timeout.run s 1 = .ok after ∧
            (after.locals 1).call = .idle lladdDeadlock := by
    decide +kernel
  exact ⟨s0, s, after, start, run, call, by simp [State.blocked, call, writers], timeout⟩

end Stasis.LockManager
