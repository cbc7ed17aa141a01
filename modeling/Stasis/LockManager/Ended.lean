import Stasis.LockManager.Pages

/-!
What is left of a transaction that has ended.

A transaction that has written to the log releases its locks when it commits or aborts. One that
has not keeps them. After an abort there is a table for the xid that has been freed, and the next
transaction with the xid would use it.
-/
namespace Stasis.PageLocks
open LockManager Tally Fallible
variable {Xid : Type} [DecidableEq Xid]

/-- The lock manager has no lock for the transaction. -/
def Unlocked (l : Local Int) : Prop := l.locks = .absent ∨ l.locks = .table []

instance (l : Local Int) : Decidable (Unlocked l) := inferInstanceAs (Decidable (_ ∨ _))

/-- A transaction that ends without having written to the log has no locks, and none begins with
a table that was freed. -/
def Orderly (s : Store Xid) (xid : Xid) : Move → Prop
  | .tcommit | .tabort => (s.xacts xid).logged = true ∨ Unlocked (s.locks.locals xid)
  | .tbegin => (s.locks.locals xid).locks ≠ .freed
  | _ => True

instance (s : Store Xid) (xid : Xid) : (move : Move) → Decidable (Orderly s xid move)
  | .tcommit | .tabort =>
    inferInstanceAs (Decidable ((s.xacts xid).logged = true ∨ Unlocked (s.locks.locals xid)))
  | .tbegin => inferInstanceAs (Decidable ((s.locks.locals xid).locks ≠ .freed))
  | .lock _ | .load _ | .update _ | .patch _ | .undo _ | .proceed | .tprepare | .forget =>
    isTrue trivial

/-- What the lock manager has for a transaction. -/
def Clean (t : Xact) (l : Local Int) : Prop :=
  match t.phase with
  | .free => Unlocked l ∨ l.locks = .freed
  | .running | .loading _ | .opening _ | .locking _ | .patching _ | .restoring _ =>
    ∃ locks, l.locks = .table locks
  | .committing | .releasing false => l.locks = .absent
  | .releasing true => l.locks = .freed ∨ l.locks = .table [] ∧ l.call = .commit true []

section Step
variable {own : Local Int}

theorem Agrees.active_of_asks (h : Agrees t l) (asks : l.call.Asks obj lv) : t.Active := by
  have expects := h.resolve_left fun idle => not_idle asks idle.choose_spec
  rw [Xact.Active]
  cases phase : t.phase with
  | free | running =>
    rw [phase] at expects
    exact expects.elim
  | loading page | opening page | locking page | patching page | restoring page => trivial
  | committing | releasing again =>
    rw [phase] at expects
    obtain ⟨putBack, left, call⟩ := expects
    rw [call] at asks
    exact asks

theorem clean_of_active (active : t.Active) :
    Clean t l ↔ ∃ locks, l.locks = .table locks := by
  rw [Xact.Active] at active
  rw [Clean]
  cases phase : t.phase with
  | running | loading page | opening page | locking page | patching page | restoring page => rfl
  | free | committing | releasing again =>
    rw [phase] at active
    exact active.elim

theorem Clean.finish (h : Clean t l) (inv : LocalInv l) (agrees : Agrees t l)
    (call : l.call = .commit putBack []) :
    Clean t ⟨if putBack then .freed else l.locks, .idle 0⟩ := by
  rw [LocalInv, call] at inv
  rw [Clean] at h ⊢
  have kept : l.locks = .absent → (if putBack then .freed else l.locks) = Registered.absent := by
    intro absent
    cases putBack with
    | false => exact absent
    | true => exact absurd (inv.1.symm.trans absent) (by simp)
  rcases agrees.ends call with phase | ⟨again, phase⟩
  · rw [phase] at h ⊢
    exact kept h
  · rw [phase] at h ⊢
    cases again with
    | false => exact kept h
    | true =>
      refine .inl ?_
      cases putBack with
      | true => rfl
      | false =>
        cases h with
        | inl freed => exact absurd (freed.symm.trans inv) (by simp)
        | inr table => exact absurd (table.1.symm.trans inv) (by simp)

theorem Clean.lock (h : Clean t l) (inv : LocalInv l) (agrees : Agrees t l)
    (goes : continues op = true) (called : Called l op own) : Clean t own := by
  cases called with
  | waits kind asks still | refused asks =>
    have active := agrees.active_of_asks asks
    have table := (clean_of_active active).mp h
    exact (clean_of_active active).mpr table
  | granted kind asks levels =>
    exact (clean_of_active (agrees.active_of_asks asks)).mpr ⟨_, rfl⟩
  | finish call => exact h.finish inv agrees call
  | @release putBack left call obj =>
    rw [Clean] at h ⊢
    split at h
    case h_10 =>
      refine h.imp id fun table => ⟨table.1, ?_⟩
      have eq := call.symm.trans table.2
      cases eq
      rfl
    all_goals exact h
  | _ => cases goes

theorem called_table (called : Called l (.readLock page) own ∨ Called l (.writeLock page) own) :
    ∃ locks, own.locks = .table locks := by
  cases called with
  | inl read =>
    cases read with
    | readLock idle same kind => exact ⟨_, rfl⟩
    | waits kind | granted kind => cases kind <;> contradiction
  | inr write =>
    cases write with
    | writeLock idle same kind => exact ⟨_, rfl⟩
    | waits kind | granted kind => cases kind <;> contradiction

theorem Clean.moved (h : Clean t l) (inv : LocalInv l) (agrees : Agrees t l)
    (live : move = .tbegin → l.locks ≠ .freed)
    (orderly : move = .tcommit ∨ move = .tabort → t.logged = true ∨ Unlocked l)
    (m : Moved l t move own after modified) : Clean after own := by
  cases m with
  | tbegin free called =>
    rw [Clean, free] at h
    rw [called_begin called]
    rcases h.resolve_right (live rfl) with absent | table
    · exact ⟨[], if_pos absent⟩
    · exact ⟨[], by rw [table]; rfl⟩
  | load ready called | update ready called | patch ready called | undo ready mem called =>
    exact called_table (.inl called)
  | opened phase called => exact called_table (.inr called)
  | lock goes called => exact h.lock inv agrees goes called
  | loaded idle phase | updated idle phase | patched idle phase | restored idle phase =>
    rw [Clean, phase] at h
    exact h
  | prepare ready | abort ready =>
    rw [Clean, ready] at h
    rw [Clean, ready]
    exact h
  | ended idle phase =>
    cases phase with
    | inl committing =>
      rw [Clean, committing] at h
      exact .inl (.inl h)
    | inr releasing =>
      rw [Clean, releasing] at h
      refine .inr (h.resolve_right fun table => ?_)
      exact absurd (idle.symm.trans table.2) nofun
  | again phase called =>
    rw [Clean, phase] at h
    rcases called_commit called with ⟨locks, table, _⟩ | ⟨_, rfl⟩
    · exact absurd (table.symm.trans h) nofun
    · exact .inr ⟨rfl, rfl⟩
  | commit ready logged called | forget ready called =>
    rw [Clean, ready] at h
    obtain ⟨locks, table⟩ := h
    rcases called_commit called with ⟨_, _, rfl⟩ | ⟨absent, _⟩
    · rfl
    · exact absurd (table.symm.trans absent) nofun
  | leave kind ready logged =>
    exact .inl ((orderly kind).resolve_left fun eq => by rw [logged] at eq; cases eq)

end Step

section Runs
variable [Fintype Xid] {s : Store Xid} {xid : Xid}

theorem Reached.clean (h : Reached Orderly s) (y : Xid) : Clean (s.xacts y) (s.locks.locals y) := by
  refine h.invariant (.inl (.inl rfl)) ?_ y
  intro s xid move own t page before allowed moved kept
  refine kept.moved (before.locks.locals xid) (before.agrees xid) ?_ ?_ moved
  · intro eq
    subst eq
    exact allowed
  · intro eq
    rcases eq with rfl | rfl
    · exact allowed
    · exact allowed

/-- The counters of a page are those of the other transactions. -/
structure CountsOthers (s : Store Xid) (xid : Xid) (page : Int) : Prop where
  readers : (s.locks.lockOf page).readers =
    ∑ y ∈ Finset.univ.erase xid, (s.locks.locals y).readers page
  writers : (s.locks.lockOf page).writers =
    ∑ y ∈ Finset.univ.erase xid, (s.locks.locals y).writers page
  waiting : (s.locks.lockOf page).waiting =
    ∑ y ∈ Finset.univ.erase xid, (s.locks.locals y).waiting page
  active : (s.locks.lockOf page).active =
    ∑ y ∈ Finset.univ.erase xid, (s.locks.locals y).active page

theorem countsOthers (h : LockManager.Inv s.locks) (idle : (s.locks.locals xid).call = .idle ret)
    (none : (s.locks.locals xid).recorded page = none) : CountsOthers s xid page := by
  have counts := h.locks page
  refine ⟨counts.readers.trans (tally_erase ?_), counts.writers.trans (tally_erase ?_),
    counts.waiting.trans (tally_erase ?_), counts.active.trans (tally_erase ?_)⟩
  · rw [Local.readers, none, idle]
    rfl
  · rw [Local.writers, none, idle]
    rfl
  · rw [Local.waiting, idle]
    rfl
  · rw [Local.active, idle]
    rfl

/-- A transaction that has ended holds nothing, nobody is kept waiting for it, and the next one
with its xid starts without locks. -/
theorem ended_releases (h : Reached Orderly s) (ended : (s.xacts xid).phase = .free) :
    (∀ page, (s.locks.locals xid).recorded page = none ∧ CountsOthers s xid page) ∧
      ∀ after, Orderly s xid .tbegin → Move.tbegin.run s xid = .ok after →
        (after.locks.locals xid).locks = .table [] := by
  have clean := h.clean xid
  obtain ⟨ret, idle⟩ := (h.agrees xid).idle (.inr ended)
  rw [Clean, ended] at clean
  have none : ∀ page, (s.locks.locals xid).recorded page = none := by
    intro page
    rw [Local.recorded]
    rcases clean with (absent | table) | freed
    · rw [absent]
    · rw [table]
      rfl
    · rw [freed]
  refine ⟨fun page => ⟨none page, countsOthers h.locks idle (none page)⟩, fun after live run => ?_⟩
  obtain ⟨own, t, page, makes⟩ := Move.run_makes run
  rw [makes.locals, Function.update_self]
  cases makes.moved with
  | tbegin free called =>
    rw [called_begin called]
    rcases clean.resolve_right live with absent | table
    · exact if_pos absent
    · rw [table]
      rfl
  | leave kind => cases kind <;> contradiction

/-- A transaction updates page 5 and commits. -/
def committed : List (Fin 2 × Move) :=
  [(0, .tbegin), (0, .update 5), (0, .lock .enter), (0, .proceed), (0, .lock .enter), (0, .proceed),
    (0, .tcommit), (0, .lock (.release 5)), (0, .lock .finish), (0, .proceed)]

theorem ended_releases_committed : ∃ s : Store (Fin 2), Reached Orderly s ∧
    (s.xacts 0).phase = .free ∧ s.history 5 = [0] ∧
    (∀ page, (s.locks.locals 0).recorded page = none ∧ CountsOthers s 0 page) ∧
      ∀ after, Orderly s 0 .tbegin → Move.tbegin.run s 0 = .ok after →
        (after.locks.locals 0).locks = .table [] := by
  obtain ⟨s, run, free, history⟩ : ∃ s, committed.foldlM (Store.runAllowed Orderly) .init = .ok s ∧
      (s.xacts 0).phase = .free ∧ s.history 5 = [0] := by decide +kernel
  have reached : Reached Orderly s := Reached.init.steps run
  exact ⟨s, reached, free, history, ended_releases reached free⟩

/-- A transaction reads page 5 and commits; another one wants to update the page. -/
def reader : List (Fin 2 × Move) :=
  [(0, .tbegin), (0, .load 5), (0, .lock .enter), (0, .proceed), (0, .tcommit), (1, .tbegin),
    (1, .update 5), (1, .lock .enter), (1, .proceed), (1, .lock .enter), (1, .lock .timeout)]

/-- The reader has ended and still has its lock, for which the other transaction is refused. -/
theorem reader_keeps_lock : ∃ s : Store (Fin 2), Reached (fun _ _ _ => True) s ∧
    (s.xacts 0).phase = .free ∧ (s.locks.locals 0).recorded 5 = some .read ∧
    (s.xacts 1).phase = .locking 5 ∧ (s.locks.locals 1).call = .idle lladdDeadlock := by
  obtain ⟨s, run, facts⟩ : ∃ s, reader.foldlM (Store.runAllowed fun _ _ _ => True) .init = .ok s ∧
      (s.xacts 0).phase = .free ∧ (s.locks.locals 0).recorded 5 = some .read ∧
        (s.xacts 1).phase = .locking 5 ∧ (s.locks.locals 1).call = .idle lladdDeadlock := by
    decide +kernel
  exact ⟨s, Reached.init.steps run, facts⟩

end Runs
end Stasis.PageLocks
