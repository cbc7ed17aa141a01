import Stasis.LockManager.Pages

/-!
Transactions that are never refused a lock do not see each other's updates.

A transaction that waits until it has its locks has all the pages that it has read or modified
until it ends, and those that it has modified for writing. Nobody else has a page that it
modifies. A refused request goes unnoticed, and then neither holds.
-/
namespace Stasis.PageLocks
open LockManager Tally Fallible
variable {Xid : Type} [DecidableEq Xid]

/-- No request for a lock is refused, an update is of one page, and a transaction does not begin
with a table that was freed. -/
def Granted (s : Store Xid) (xid : Xid) : Move → Prop
  | .lock op => op ≠ .timeout
  | .patch _ => False
  | .tbegin => (s.locks.locals xid).locks ≠ .freed
  | _ => True

instance (s : Store Xid) (xid : Xid) : (move : Move) → Decidable (Granted s xid move)
  | .lock op => inferInstanceAs (Decidable (op ≠ .timeout))
  | .tbegin => inferInstanceAs (Decidable ((s.locks.locals xid).locks ≠ .freed))
  | .patch _ => isFalse id
  | .load _ | .update _ | .undo _ | .proceed | .tprepare | .tcommit | .tabort | .forget =>
    isTrue trivial

/-- What a transaction has by the time that its request returns. -/
def Holds (t : Xact) (l : Local Int) : Prop :=
  match t.phase with
  | .loading page | .opening page => l.call.Asks page .read ∨ (l.recorded page).isSome
  | .locking page => l.call.Asks page .write ∨ l.recorded page = some .write
  | .restoring page => page ∈ t.updated
  | .patching _ => False
  | .free | .running | .committing | .releasing _ => True

structure Protected (t : Xact) (l : Local Int) : Prop where
  touched : t.Active → ∀ page ∈ t.touched, (l.recorded page).isSome
  updated : t.Active → ∀ page ∈ t.updated, l.recorded page = some .write
  holds : Holds t l

/-- Nothing that is recorded is given up. -/
structure Grows (l own : Local Int) : Prop where
  held : ∀ page, (l.recorded page).isSome → (own.recorded page).isSome
  write : ∀ page, l.recorded page = some .write → own.recorded page = some .write

section Step
variable {t : Xact}

theorem Grows.of_eq (same : ∀ o, own.recorded o = l.recorded o) : Grows l own :=
  ⟨fun o held => by rw [same o]; exact held, fun o held => (same o).trans held⟩

theorem granted_grows (inv : LocalInv l) (asks : l.call.Asks obj lv)
    (levels : ∀ o, own.recorded o = if o = obj then some lv else l.recorded o) : Grows l own := by
  have notYet : l.recorded obj ≠ some .write := by
    cases call : l.call with
    | read o =>
      rw [call] at asks
      rw [← asks.1, inv.recorded_read (.inl call)]
      nofun
    | readWait o =>
      rw [call] at asks
      rw [← asks.1, inv.recorded_read (.inr call)]
      nofun
    | write o level =>
      rw [call] at asks
      obtain ⟨had, notYet⟩ := inv.recorded_write (.inl call)
      rw [← asks.1, had]
      exact notYet
    | writeWait o level =>
      rw [call] at asks
      obtain ⟨had, notYet⟩ := inv.recorded_write (.inr call)
      rw [← asks.1, had]
      exact notYet
    | idle ret | unlock o | decrement o level | commit putBack left =>
      rw [call] at asks
      exact asks.elim
  refine ⟨fun o held => ?_, fun o held => ?_⟩
  · rw [levels o]
    split
    · rfl
    · exact held
  · rw [levels o, if_neg]
    · exact held
    · intro same
      rw [same] at held
      exact notYet held

theorem Protected.grows (h : Protected t l) (grows : Grows l own)
    (active : after.Active → t.Active) (touched : after.touched = t.touched)
    (updated : after.updated = t.updated) (holds : Holds after own) : Protected after own := by
  refine ⟨fun running o mem => ?_, fun running o mem => ?_, holds⟩
  · rw [touched] at mem
    exact grows.held o (h.touched (active running) o mem)
  · rw [updated] at mem
    exact grows.write o (h.updated (active running) o mem)

theorem protected_of_ended (ended : ¬after.Active) (holds : Holds after own) :
      Protected after own :=
  ⟨fun running => absurd running ended, fun running => absurd running ended, holds⟩

theorem active_of (eq : t.phase = phase) (active : ({ t with phase := phase } : Xact).Active) :
    t.Active := by
  rw [← eq] at active
  exact active

theorem Protected.lock (h : Protected t l) (inv : LocalInv l) (agrees : Agrees t l)
    (goes : continues op = true) (patient : op ≠ .timeout) (called : Called l op own) :
    Protected t own := by
  have releases : ∀ {putBack : Bool} {left : XidLocks Int}, l.call = .commit putBack left →
      ∀ own, Protected t own := by
    intro putBack left call own
    have ended : ¬t.Active ∧ Holds t own := by
      rw [Xact.Active, Holds]
      rcases agrees.ends call with phase | ⟨_, phase⟩
      all_goals
        rw [phase]
        exact ⟨id, trivial⟩
    exact protected_of_ended ended.1 ended.2
  cases called with
  | @waits _ kind obj lv asks call still =>
    refine h.grows (.of_eq fun _ => rfl) id rfl rfl ?_
    have asked : ∀ {o lv}, l.call.Asks o lv → call.Asks o lv := by
      intro o lv read
      obtain ⟨rfl, rfl⟩ := asks_unique read asks
      exact still
    have holds := h.holds
    rw [Holds] at holds ⊢
    split at holds
    · exact holds.imp asked id
    · exact holds.imp asked id
    · exact holds.imp asked id
    · exact holds
    · exact holds
    all_goals trivial
  | @granted _ kind obj lv asks locks levels =>
    have levels := levels inv
    have grows : Grows l ⟨.table locks, .idle 0⟩ := granted_grows inv asks levels
    refine h.grows grows id rfl rfl ?_
    have holds := h.holds
    rw [Holds] at holds ⊢
    have here : ∀ {o lv}, l.call.Asks o lv →
        (⟨.table locks, .idle 0⟩ : Local Int).recorded o = some lv := by
      intro o lv read
      obtain ⟨rfl, rfl⟩ := asks_unique read asks
      exact (levels o).trans (if_pos rfl)
    split at holds
    · exact .inr (holds.elim (fun read => by rw [here read]; rfl) (grows.held _))
    · exact .inr (holds.elim (fun read => by rw [here read]; rfl) (grows.held _))
    · exact .inr (holds.elim here (grows.write _))
    · exact holds
    · exact holds
    all_goals trivial
  | refused asks => exact absurd rfl patient
  | release call obj | finish call => exact releases call _
  | _ => cases goes

theorem Protected.moved {modified : Option Int} (h : Protected t l) (inv : LocalInv l)
    (agrees : Agrees t l) (patient : move ≠ .lock .timeout) (single : ∀ page, move ≠ .patch page)
    (m : Moved l t move own after modified) : Protected after own := by
  have holds := h.holds
  cases m with
  | tbegin free called => exact ⟨fun _ => nofun, fun _ => nofun, trivial⟩
  | load ready called | update ready called =>
    have same := called.starts (.inl rfl)
    refine h.grows (.of_eq same) (fun _ => active_of ready trivial) rfl rfl ?_
    refine (called_read called).symm.imp id fun held => ?_
    rw [same]
    exact held.2
  | @patch own page ready called => exact absurd rfl (single page)
  | undo ready mem called =>
    exact h.grows (.of_eq (called.starts (.inl rfl))) (fun _ => active_of ready trivial) rfl rfl mem
  | lock goes called => exact h.lock inv agrees goes (fun eq => patient (by rw [eq])) called
  | @loaded ret page idle phase =>
    have active := active_of phase trivial
    rw [Holds, phase] at holds
    have held := holds.resolve_left fun asks => not_idle asks idle
    refine ⟨fun _ o mem => ?_, fun _ => h.updated active, trivial⟩
    cases mem with
    | head => exact held
    | tail _ mem => exact h.touched active o mem
  | opened phase called =>
    have active := active_of phase trivial
    have same := called.starts (.inr rfl)
    refine h.grows (.of_eq same) (fun _ => active) rfl rfl ?_
    refine (called_write called).symm.imp id fun held => ?_
    rw [same]
    exact held.2
  | @updated ret page idle phase =>
    have active := active_of phase trivial
    rw [Holds, phase] at holds
    have held := holds.resolve_left fun asks => not_idle asks idle
    refine ⟨fun _ o mem => ?_, fun _ o mem => ?_, trivial⟩
    · cases mem with
      | head =>
        rw [held]
        rfl
      | tail _ mem => exact h.touched active o mem
    · cases mem with
      | head => exact held
      | tail _ mem => exact h.updated active o mem
  | patched idle phase =>
    rw [Holds, phase] at holds
    exact holds.elim
  | restored idle phase =>
    have active := active_of phase trivial
    exact h.grows (.of_eq fun _ => rfl) (fun _ => active) rfl rfl trivial
  | prepare ready | abort ready =>
    refine h.grows (.of_eq fun _ => rfl) id rfl rfl ?_
    rw [Holds, ready]
    trivial
  | ended idle phase | again phase called | commit ready logged called
  | leave kind ready logged | forget ready called => exact protected_of_ended id trivial

theorem Protected.modified (h : Protected t l) (m : Moved l t move own after (some page)) :
    l.recorded page = some .write := by
  have holds := h.holds
  cases m with
  | updated idle phase =>
    rw [Holds, phase] at holds
    exact holds.resolve_left fun asks => not_idle asks idle
  | patched idle phase =>
    rw [Holds, phase] at holds
    exact holds.elim
  | restored idle phase =>
    have active := active_of phase trivial
    rw [Holds, phase] at holds
    exact h.updated active page holds

end Step

section Runs
variable [Fintype Xid] {s after : Store Xid} {xid : Xid} {move : Move} {page : Int}

theorem Reached.protected (h : Reached Granted s) (y : Xid) :
    Protected (s.xacts y) (s.locks.locals y) := by
  refine h.invariant ⟨fun _ => nofun, fun _ => nofun, trivial⟩ ?_ y
  intro s xid move own t page before allowed moved kept
  refine kept.moved (before.locks.locals xid) (before.agrees xid) ?_ ?_ moved
  · intro eq
    subst eq
    exact allowed rfl
  · intro o eq
    subst eq
    exact allowed

theorem write_alone {Obj : Type} [DecidableEq Obj] {s : State Xid Obj} (h : LockManager.Inv s)
    {obj : Obj} (held : (s.locals xid).recorded obj = some .write) (other : y ≠ xid) :
    (s.locals y).recorded obj = none := by
  by_contra there
  have counts := h.locks obj
  have writers := counts.writers
  have readers := counts.readers
  have own : 1 ≤ (s.locals xid).writers obj := by
    have nonneg := one_nonneg ((s.locals xid).call.pending obj = some .write)
    rw [Local.writers, one, if_pos held]
    omega
  have ownReaders := Local.writers_le_readers obj (s.locals xid)
  have theirs : 1 ≤ (s.locals y).readers obj := by
    have nonneg := one_nonneg (((s.locals y).call.pending obj).isSome)
    rw [Local.readers, one, if_pos (Option.isSome_iff_ne_none.mpr there)]
    omega
  have some := le_tally (f := Local.writers obj) (g := s.locals)
    (fun z => Local.writers_nonneg obj (s.locals z)) xid
  have both := add_le_tally (f := Local.readers obj) (g := s.locals)
    (fun z => Local.readers_nonneg obj (s.locals z)) (Ne.symm other)
  have exclusive := counts.exclusive
  omega

omit [Fintype Xid] in
theorem Makes.changed {own : Local Int} {t : Xact} (h : Makes s xid move after own t modified)
    (changed : after.history page ≠ s.history page) : modified = some page := by
  rw [h.history] at changed
  cases modified with
  | none => exact absurd rfl changed
  | some o =>
    by_cases same : page = o
    · rw [same]
    · exact absurd (Function.update_of_ne same ..) changed

/-- A transaction modifies what it has locked for writing, nobody else has a lock on it, and no
transaction that is active has read it or modified it. -/
theorem writers_isolated (h : Reached Granted s) (run : move.run s xid = .ok after)
    (changed : after.history page ≠ s.history page) :
    (s.locks.locals xid).recorded page = some .write ∧ ∀ y, y ≠ xid →
      (s.locks.locals y).recorded page = none ∧
      ((s.xacts y).Active → page ∉ (s.xacts y).touched) := by
  obtain ⟨own, t, modified, makes⟩ := move.run_makes run
  have here := makes.changed changed
  subst here
  have held := (h.protected xid).modified makes.moved
  refine ⟨held, fun y other => ?_⟩
  have free := write_alone h.locks held other
  refine ⟨free, fun active mem => ?_⟩
  have there := (h.protected y).touched active page mem
  rw [free] at there
  cases there

end Runs

/-- A transaction has read page 5, and another one waits to update it. -/
def contended : List (Fin 2 × Move) :=
  [(0, .tbegin), (0, .load 5), (0, .lock .enter), (0, .proceed), (1, .tbegin), (1, .update 5),
    (1, .lock .enter), (1, .proceed), (1, .lock .enter)]

/-- The second transaction is woken when the first one has committed. -/
theorem writers_isolated_pair : ∃ s after : Store (Fin 2), Reached Granted s ∧
    Move.proceed.run s 1 = .ok after ∧ after.history 5 = [1] ∧ (s.xacts 0).touched = [5] ∧
    ((s.locks.locals 1).recorded 5 = some .write ∧ ∀ y, y ≠ 1 →
      (s.locks.locals y).recorded 5 = none ∧ ((s.xacts y).Active → 5 ∉ (s.xacts y).touched)) := by
  obtain ⟨s, run, ⟨after, step, changed⟩, history, touched⟩ : ∃ s : Store (Fin 2),
      (contended ++ [(0, Move.tprepare), (0, .tcommit), (0, .lock (.release 5)), (0, .lock .finish),
        (0, .proceed), (1, .lock .wake)]).foldlM (Store.runAllowed Granted) .init = .ok s ∧
        (∃ after, Move.proceed.run s 1 = .ok after ∧ after.history 5 = [1]) ∧
          s.history 5 = [] ∧ (s.xacts 0).touched = [5] := by
    decide +kernel
  have reached : Reached Granted s := Reached.init.steps run
  refine ⟨s, after, reached, step, changed, touched, writers_isolated reached step ?_⟩
  rw [changed, history]
  nofun

/-- The request of the second transaction is refused, and it modifies the page all the same. -/
theorem refused_update : ∃ s after : Store (Fin 2), Reached (fun _ _ _ => True) s ∧
    Move.proceed.run s 1 = .ok after ∧ after.history 5 ≠ s.history 5 ∧
    (s.locks.locals 1).recorded 5 ≠ some .write ∧
    (s.locks.locals 0).recorded 5 = some .read ∧
    (s.xacts 0).Active ∧ 5 ∈ (s.xacts 0).touched := by
  obtain ⟨s, run, ⟨after, step, changed⟩, history, second, first, xact⟩ : ∃ s : Store (Fin 2),
      (contended ++ [(1, Move.lock .timeout)]).foldlM (Store.runAllowed fun _ _ _ => True) .init =
          .ok s ∧ (∃ after, Move.proceed.run s 1 = .ok after ∧ after.history 5 = [1]) ∧
        s.history 5 = [] ∧ (s.locks.locals 1).recorded 5 = some .read ∧
          (s.locks.locals 0).recorded 5 = some .read ∧
            s.xacts 0 = ⟨.running, false, false, [], [5]⟩ := by
    decide +kernel
  refine ⟨s, after, Reached.init.steps run, step, ?_, ?_, first, ?_, ?_⟩
  · rw [changed, history]
    simp
  · rw [second]
    simp
  · rw [xact]
    trivial
  · rw [xact]
    exact List.mem_singleton_self 5

end Stasis.PageLocks
