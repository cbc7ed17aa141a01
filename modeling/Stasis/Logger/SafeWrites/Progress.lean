import Stasis.Logger.SafeWrites.Invariant

/-!
What the steps of the threads leave in the safe writes log.

While the log is open, its numbers only rise, and its entries stay until they are truncated;
a truncation may clear the checksum of one of them.
-/
namespace Stasis.SafeWrites
open LittleEndian RawLogEntry Tiling Fallible Function List

/-- The log stays open, and keeps what is behind `x`. -/
def Op.Keeps (x : Int) : Op → Prop
  | truncate _ LSN => LSN ≤ x
  | reopen _ _ => False
  | _ => True

/-- The entry `f` as it may be found later. -/
def SameEntry (f g : RawLogEntry) : Prop :=
  g = f ∨ f.type = internalLog ∧ g = { f with prevLSN := 0 }

variable {f g : RawLogEntry}

theorem SameEntry.lsn (h : SameEntry f g) : g.LSN = f.LSN := by
  cases h with
  | inl eq => rw [eq]
  | inr cleared => rw [cleared.2]

theorem SameEntry.clear (h : SameEntry f g) (internal : g.type = internalLog) :
    SameEntry f { g with prevLSN := 0 } := by
  cases h with
  | inl eq =>
    subst eq
    exact .inr ⟨internal, rfl⟩
  | inr cleared => exact .inr ⟨cleared.1, by rw [cleared.2]⟩

theorem sameEntry_clearFirst (mem : g ∈ l) (same : SameEntry f g) :
    ∃ g' ∈ clearFirst l, SameEntry f g' := by
  induction l with
  | nil => exact absurd mem not_mem_nil
  | cons e l ih =>
    rw [clearFirst]
    split
    · next internal =>
      cases mem_cons.mp mem with
      | inl eq =>
        subst eq
        exact ⟨_, mem_cons_self, same.clear internal⟩
      | inr later => exact ⟨g, mem_cons_of_mem _ later, same⟩
    · cases mem_cons.mp mem with
      | inl eq => exact ⟨g, eq ▸ mem_cons_self, same⟩
      | inr later =>
        obtain ⟨g', held, same'⟩ := ih later
        exact ⟨g', mem_cons_of_mem e held, same'⟩

/-- The steps of the threads, without truncation and reopening. -/
def Op.Appends : Op → Prop
  | truncate _ _ | reopen _ _ => False
  | _ => True

instance : (op : Op) → Decidable op.Appends
  | .truncate _ _ | .reopen _ _ => isFalse id
  | .reserve _ _ | .write _ _ | .done _ | .forceReserve _ _ _ | .forceWrite _ | .forceDone _
  | .forceFlush _ | .forceSync _ | .forcePublish _ | .spill _ | .syncInternal => isTrue trivial

/-- The entry that a step is about. -/
def Op.ptr : Op → Option Nat
  | reserve ptr _ | write ptr _ | done ptr | forceReserve ptr _ _ | forceWrite ptr | forceDone ptr
  | forceFlush ptr | forceSync ptr | forcePublish ptr => some ptr
  | _ => none

/-- The entry of a call of `syncLog`, and its mode. -/
def Task.force : Task → Option (Int × ForceMode)
  | crcReserved _ lsn mode | crcWritten _ lsn mode | crcDone lsn mode | fflushed lsn mode
  | fdatasynced lsn mode => some (lsn, mode)
  | _ => none

section Append
variable {after : Session} {op : Op}

/-- What such a step leaves to the clients that it is not about. -/
structure LogStep (log log' : Session) (ptr : Option Nat) : Prop where
  logged : ∀ e ∈ log.logged, e ∈ log'.logged
  next : log.sw.nextAvailableLSN ≤ log'.sw.nextAvailableLSN
  wal : log.sw.flushedLSNWal ≤ log'.sw.flushedLSNWal
  commit : log.sw.flushedLSNCommit ≤ log'.sw.flushedLSNCommit
  tasks : ∀ q, ptr ≠ some q → log'.tasks q = log.tasks q
  offset : log'.sw.globalOffset = log.sw.globalOffset

theorem LogStep.refl (log : Session) (ptr : Option Nat) : LogStep log log ptr :=
  ⟨fun _ mem => mem, le_rfl, le_rfl, le_rfl, fun _ _ => rfl, rfl⟩

theorem LogStep.own {sw : State} {task : Task} (logged : ∀ e ∈ s.logged, e ∈ l)
    (next : s.sw.nextAvailableLSN ≤ sw.nextAvailableLSN) (wal : s.sw.flushedLSNWal ≤ sw.flushedLSNWal)
    (commit : s.sw.flushedLSNCommit ≤ sw.flushedLSNCommit)
    (offset : sw.globalOffset = s.sw.globalOffset) :
    LogStep s ⟨sw, update s.tasks ptr task, l⟩ (some ptr) :=
  ⟨logged, next, wal, commit,
    fun _ ne => update_of_ne (fun eq => ne (congrArg some eq.symm)) .., offset⟩

theorem logStep (h : Inv crc32 s) (allowed : op.Allowed s) (appends : op.Appends)
    (run : op.run crc32 s = .ok after) : LogStep s after op.ptr := by
  cases op with
  | reserve ptr thread | forceReserve ptr thread mode =>
    obtain ⟨_, _, rfl⟩ := reserve_ok run
    exact .own (fun _ mem => mem) le_rfl le_rfl le_rfl rfl
  | write ptr e =>
    simp only [Op.run] at run
    split at run
    · next thread lsn task =>
      have own := h.tasks ptr
      rw [task] at own
      have fits : (Task.reserved thread lsn).Fits e := task ▸ allowed
      have pos := extent_pos fits.1
      obtain ⟨_, rfl⟩ := writeEntry_ok run
      refine .own (fun _ => mem_append_left _) ?_ le_rfl le_rfl rfl
      rw [← own.1]
      exact le_of_lt (Int.lt_add_of_pos_right lsn pos)
    · cases run
  | forceWrite ptr =>
    simp only [Op.run] at run
    split at run
    · next thread lsn mode task =>
      have own := h.tasks ptr
      rw [task] at own
      obtain ⟨_, rfl⟩ := writeEntry_ok run
      refine .own (fun _ => mem_append_left _) ?_ le_rfl le_rfl rfl
      show _ ≤ nextEntry _
      rw [nextEntry_crcEntry, crcEnd_eq, ← own.1]
      omega
    · cases run
  | done ptr | forceDone ptr =>
    simp only [Op.run] at run
    split at run
    · obtain ⟨_, _, rfl⟩ := finish_ok run
      exact .own (fun _ mem => mem) le_rfl le_rfl le_rfl rfl
    · cases run
  | forceFlush ptr =>
    simp only [Op.run] at run
    split at run
    · cases run
      exact .own (fun _ mem => mem) le_rfl le_rfl le_rfl rfl
    · cases run
  | forceSync ptr =>
    simp only [Op.run] at run
    split at run
    · next lsn mode task =>
      cases run
      have same : s.sw.syncFile mode = s.sw.fdatasync ∨ s.sw.syncFile mode = s.sw :=
        ite_eq_or_eq ..
      obtain sync | sync := same
      all_goals
        rw [sync]
        exact .own (fun _ mem => mem) le_rfl le_rfl le_rfl rfl
    · cases run
  | forcePublish ptr =>
    simp only [Op.run] at run
    split at run
    · next lsn mode task =>
      cases run
      refine .own (fun _ mem => mem) le_rfl ?_ (Int.le_max_left ..) rfl
      show s.sw.flushedLSNWal ≤ if _ then _ else _
      split
      · exact Int.le_max_left ..
      · exact le_rfl
    · cases run
  | spill n =>
    cases run
    exact ⟨fun _ mem => mem, le_rfl, le_rfl, le_rfl, fun _ _ => rfl, rfl⟩
  | syncInternal =>
    cases run
    have same : s.sw.syncLogInternal = _ ∨ s.sw.syncLogInternal = s.sw := ite_eq_or_eq ..
    obtain sync | sync := same
    all_goals
      rw [sync]
      exact ⟨fun _ mem => mem, le_rfl, le_rfl, le_rfl, fun _ _ => rfl, rfl⟩
  | truncate _ _ | reopen _ _ => exact appends.elim

/-- What no step takes away from a log that stays open. -/
structure Advance (x : Int) (s after : Session) : Prop where
  offset : s.sw.globalOffset ≤ after.sw.globalOffset
  entries : ∀ f g, x ≤ f.LSN → g ∈ s.logged → SameEntry f g → ∃ g' ∈ after.logged, SameEntry f g'

theorem Inv.advance (h : Inv crc32 s) (allowed : op.Allowed s) (keeps : op.Keeps x)
    (run : op.run crc32 s = .ok after) : Advance x s after := by
  by_cases appends : op.Appends
  · have step := logStep h allowed appends run
    exact ⟨Int.le_of_eq step.offset.symm, fun _ g _ mem same => ⟨g, step.logged g mem, same⟩⟩
  · cases op with
    | truncate stale LSN =>
      obtain rfl | ⟨above, _, _, internal, _, rfl⟩ := h.truncate_cases allowed run
      · exact ⟨le_rfl, fun _ g _ mem same => ⟨g, mem, same⟩⟩
      · refine ⟨?_, fun f g low mem same => ?_⟩
        · show _ ≤ LSN - lsnSize
          omega
        · have lsn := same.lsn
          have low : LSN ≤ x := keeps
          have behind : g ∈ s.logged.filter fun e => LSN ≤ e.LSN :=
            mem_filter.mpr ⟨mem, decide_eq_true (by omega)⟩
          obtain ⟨g', held, same'⟩ := sameEntry_clearFirst behind same
          exact ⟨g', mem_append_left _ held, same'⟩
    | reopen stale n => exact keeps.elim
    | _ => exact absurd trivial appends

variable {task : Task}

theorem write_own (run : (Op.write ptr e).run crc32 s = .ok after) :
    ∃ thread lsn, s.tasks ptr = .reserved thread lsn ∧ after.tasks ptr = .written thread lsn ∧
      { e with LSN := lsn } ∈ after.logged ∧ e.type ≠ internalLog := by
  simp only [Op.run] at run
  split at run
  · next thread lsn task =>
    obtain ⟨kind, rfl⟩ := writeEntry_ok run
    refine ⟨thread, lsn, task, update_self .., ?_, ?_⟩
    · exact mem_append_right _ mem_cons_self
    · exact of_decide_eq_false kind.symm
  · cases run

theorem nextForce_ptr (next : task.nextForce ptr = some op) : op.Appends ∧ op.ptr = some ptr := by
  cases task with
  | idle | reserved _ _ | written _ _ => cases next
  | _ =>
    cases next
    exact ⟨trivial, rfl⟩

theorem nextForce_allowed (next : task.nextForce ptr = some op)
    (bound : crcEnd s.sw.nextAvailableLSN < 2 ^ 63) : op.Allowed s := by
  cases op with
  | forceWrite p => exact bound
  | write _ _ | truncate _ _ | reopen _ _ =>
    revert next
    cases task <;> nofun
  | _ => trivial

/-- A step of `syncLog` leads to the next one, or publishes the number behind its entry. -/
theorem nextForce_own (force : (s.tasks ptr).force = some (lsn, mode))
    (next : (s.tasks ptr).nextForce ptr = some op) (run : op.run crc32 s = .ok after) :
    (after.tasks ptr).force = some (lsn, mode) ∨
      after.tasks ptr = .idle ∧ crcEnd lsn ≤ after.sw.flushedLSNCommit ∧
        (mode = .wal → crcEnd lsn ≤ after.sw.flushedLSNWal) := by
  cases task : s.tasks ptr with
  | idle | reserved _ _ | written _ _ =>
    rw [task] at force
    cases force
  | crcReserved thread l m =>
    rw [task] at force next
    cases force
    cases next
    simp only [Op.run, task] at run
    obtain ⟨_, rfl⟩ := writeEntry_ok run
    exact .inl (by simp only [update_self]; rfl)
  | crcWritten thread l m =>
    rw [task] at force next
    cases force
    cases next
    simp only [Op.run, task] at run
    obtain ⟨_, _, rfl⟩ := finish_ok run
    exact .inl (by simp only [update_self]; rfl)
  | crcDone l m | fflushed l m =>
    rw [task] at force next
    cases force
    cases next
    simp only [Op.run, task] at run
    cases run
    exact .inl (by simp only [Session.setTask, update_self]; rfl)
  | fdatasynced l m =>
    rw [task] at force next
    cases force
    cases next
    simp only [Op.run, task] at run
    cases run
    refine .inr ⟨update_self .., Int.le_max_right .., fun wal => ?_⟩
    show crcEnd lsn ≤ if _ then _ else _
    rw [if_pos (.inr wal)]
    exact Int.le_max_right ..

end Append

/-- Steps of a log that stays open and keeps what is behind `x`. -/
inductive Continues (crc32 : List UInt8 → UInt32 → UInt32) (x : Int) (s : Session) : Session → Prop
  | start : Continues crc32 x s s
  | step {mid after : Session} (before : Continues crc32 x s mid) (op : Op)
      (allowed : op.Allowed mid) (keeps : op.Keeps x) (run : op.run crc32 mid = .ok after) :
      Continues crc32 x s after

variable {after : Session} (run : Continues crc32 x s after) (h : Reached crc32 s)
include run h

theorem Continues.reached : Reached crc32 after := by
  induction run with
  | start => exact h
  | step _ op allowed _ run ih => exact ih.step op allowed run

theorem Continues.entries (low : x ≤ f.LSN) (mem : g ∈ s.logged) (same : SameEntry f g) :
    ∃ g' ∈ after.logged, SameEntry f g' := by
  induction run with
  | start => exact ⟨g, mem, same⟩
  | step before op allowed keeps run ih =>
    obtain ⟨g', held, same'⟩ := ih
    exact ((before.reached h).inv.advance allowed keeps run).entries f g' low held same'

theorem Continues.offset : s.sw.globalOffset ≤ after.sw.globalOffset := by
  induction run with
  | start => exact le_rfl
  | step before op allowed keeps run ih =>
    exact le_trans ih ((before.reached h).inv.advance allowed keeps run).offset

end Stasis.SafeWrites
