import Stasis.Logger.SafeWrites.Truncate
import Stasis.Logger.SafeWrites.Reopen
import Stasis.Library.Fallible

/-!
The invariant of the safe writes log and its threads.

A step of one thread takes nothing away from what another has found out: numbers that are
covered by a checksum stay so, and what is in the file or on disk stays there. This is
`Grows`, and the facts about a thread carry over to every state that has grown.
-/
namespace Stasis.SafeWrites
open LittleEndian RawLogEntry Tiling Fallible Function List Option

section
variable (sw : State) (logged : List RawLogEntry)

/-- What is known about the numbers up to which the log was forced. -/
structure MarkInv : Prop where
  wal : Covered logged sw.flushedLSNWal
  walLe : sw.flushedLSNWal ≤ sw.nextAvailableLSN
  walSynced : sw.flushedLSNWal ≤ sw.globalOffset + sw.synced
  commit : Covered logged sw.flushedLSNCommit
  commitLe : sw.flushedLSNCommit ≤ sw.nextAvailableLSN
  syncedLe : sw.synced ≤ sw.file.length
  osync : sw.osync → sw.synced = sw.file.length

/-- The entry with a checksum at `lsn` was written. -/
def Forced (lsn : Int) : Prop :=
  crcEnd lsn ≤ sw.nextAvailableLSN ∧ Covered logged (crcEnd lsn)

def TaskInv (ptr : Nat) : Task → Prop
  | .idle => True
  | .reserved _ lsn | .crcReserved _ lsn _ =>
    lsn = sw.nextAvailableLSN ∧ sw.writeMutex = some ptr
  | .written _ lsn => lsn < sw.nextAvailableLSN
  | .crcWritten _ lsn _ | .crcDone lsn _ => Forced sw logged lsn
  | .fflushed lsn _ => Forced sw logged lsn ∧ crcEnd lsn ≤ sw.globalOffset + sw.file.length
  | .fdatasynced lsn mode => Forced sw logged lsn ∧
      crcEnd lsn ≤ sw.globalOffset + sw.file.length ∧
      (¬sw.softcommit ∨ mode = .wal → crcEnd lsn ≤ sw.globalOffset + sw.synced)

end

/-- The entries that are in the minimum are those that are pending. -/
structure PendingInv (sw : State) (tasks : Nat → Task) : Prop where
  wellFormed : sw.minPending.WellFormed
  member : ∀ h, sw.minPending.Member h ↔ (tasks h.ptr).pending = some h.lsn

structure Inv (crc32 : List UInt8 → UInt32 → UInt32) (s : Session) : Prop where
  file : FileInv crc32 s.sw s.logged
  read : ReadInv s.sw s.logged
  marks : MarkInv s.sw s.logged
  tasks : ∀ ptr, TaskInv s.sw s.logged ptr (s.tasks ptr)
  pending : PendingInv s.sw s.tasks

structure Grows (sw : State) (logged : List RawLogEntry) (after : State)
    (logged' : List RawLogEntry) : Prop where
  next : sw.nextAvailableLSN ≤ after.nextAvailableLSN
  covered : ∀ x ≤ sw.nextAvailableLSN, Covered logged x → Covered logged' x
  file : ∀ x ≤ sw.nextAvailableLSN, x ≤ sw.globalOffset + sw.file.length →
    x ≤ after.globalOffset + after.file.length
  synced : ∀ x ≤ sw.nextAvailableLSN, x ≤ sw.globalOffset + sw.synced →
    x ≤ after.globalOffset + after.synced
  softcommit : after.softcommit = sw.softcommit

/-- The thread holds the write mutex. -/
def Task.holds : Task → Prop
  | reserved _ _ | crcReserved _ _ _ => True
  | _ => False

section Grows
variable {sw after : State}

theorem Forced.grow {lsn : Int} (h : Forced sw logged lsn) (g : Grows sw logged after logged') :
    Forced after logged' lsn :=
  ⟨le_trans h.1 g.next, g.covered _ h.1 h.2⟩

theorem TaskInv.grow {task : Task} (h : TaskInv sw logged ptr task)
    (g : Grows sw logged after logged')
    (held : task.holds → after.nextAvailableLSN = sw.nextAvailableLSN ∧
      after.writeMutex = sw.writeMutex) : TaskInv after logged' ptr task := by
  cases task with
  | idle => trivial
  | reserved thread lsn | crcReserved thread lsn mode =>
    have same := held trivial
    exact ⟨h.1.trans same.1.symm, same.2.trans h.2⟩
  | written thread lsn => exact lt_of_lt_of_le h g.next
  | crcWritten thread lsn mode | crcDone lsn mode => exact Forced.grow h g
  | fflushed lsn mode => exact ⟨h.1.grow g, g.file _ h.1.1 h.2⟩
  | fdatasynced lsn mode =>
    refine ⟨h.1.grow g, g.file _ h.1.1 h.2.1, fun durable => ?_⟩
    rw [g.softcommit] at durable
    exact g.synced _ h.1.1 (h.2.2 durable)

theorem MarkInv.grow (h : MarkInv sw logged) (g : Grows sw logged after logged')
    (wal : after.flushedLSNWal = sw.flushedLSNWal)
    (commit : after.flushedLSNCommit = sw.flushedLSNCommit)
    (syncedLe : after.synced ≤ after.file.length)
    (osync : after.osync → after.synced = after.file.length) : MarkInv after logged' :=
  ⟨wal ▸ g.covered _ h.walLe h.wal, wal ▸ le_trans h.walLe g.next,
    wal ▸ g.synced _ h.walLe h.walSynced, commit ▸ g.covered _ h.commitLe h.commit,
    commit ▸ le_trans h.commitLe g.next, syncedLe, osync⟩

theorem Grows.same (next : after.nextAvailableLSN = sw.nextAvailableLSN)
    (offset : after.globalOffset = sw.globalOffset) (file : after.file = sw.file)
    (synced : after.synced = sw.synced) (softcommit : after.softcommit = sw.softcommit) :
    Grows sw logged after logged :=
  ⟨Int.le_of_eq next.symm, fun _ _ h => h, fun x _ h => by rw [offset, file]; exact h,
    fun x _ h => by rw [offset, synced]; exact h, softcommit⟩

theorem Grows.spill (n : Nat) (osync : sw.osync → sw.synced = sw.file.length) :
    Grows sw logged (sw.spill n) logged := by
  have longer : (sw.spill n).file.length = sw.file.length + (sw.buffer.take n).length :=
    length_append
  have synced : sw.synced ≤ (sw.spill n).synced := by
    show sw.synced ≤ if sw.osync then (sw.spill n).file.length else sw.synced
    split
    · next sync =>
      have := osync sync
      omega
    · exact le_rfl
  refine ⟨le_rfl, fun _ _ h => h, fun x _ h => ?_, fun x _ h => ?_, rfl⟩
  · show x ≤ sw.globalOffset + (sw.spill n).file.length
    omega
  · show x ≤ sw.globalOffset + (sw.spill n).synced
    omega

theorem Grows.truncated (h : FileInv crc32 sw logged) {LSN internal : Int}
    (entry : Boundary sw logged LSN) (above : sw.globalOffset + lsnSize < LSN)
    (bound : crcEnd sw.nextAvailableLSN < 2 ^ 63) :
    Grows sw logged (truncated sw logged LSN internal) (kept sw logged LSN) := by
  have length := (truncated_fileInv h entry above bound internal).length
  have next : sw.nextAvailableLSN ≤ crcEnd sw.nextAvailableLSN := by
    rw [crcEnd]
    omega
  have whole : ∀ x ≤ sw.nextAvailableLSN, x ≤ (SafeWrites.truncated sw logged LSN internal).globalOffset +
      (SafeWrites.truncated sw logged LSN internal).file.length := by
    intro x le
    refine le_trans (le_trans le next) (Int.le_of_eq ?_)
    exact length.symm
  refine ⟨next, fun x le covered => ?_, fun x le _ => whole x le, fun x le _ => whole x le, rfl⟩
  obtain ⟨front, split, hf, run⟩ := h.split_filter entry
  rw [split] at covered
  exact ((covered.back run hf).shape (clearFirst_shape _)).append le

theorem spill_osync (n : Nat) (osync : (sw.spill n).osync) :
    (sw.spill n).synced = (sw.spill n).file.length :=
  if_pos osync

end Grows

section Steps
variable {s after : Session}

theorem reserve_ok (h : s.reserve ptr thread task = .ok after) :
    s.tasks ptr = .idle ∧ s.sw.writeMutex = none ∧
      after = {
        sw := { s.sw with
          writeMutex := some ptr
          minPending := s.sw.minPending.add thread ⟨ptr, s.sw.nextAvailableLSN⟩ }
        tasks := update s.tasks ptr task
        logged := s.logged } := by
  rw [Session.reserve] at h
  split at h
  · next idle =>
    obtain ⟨sw, reserve, eq⟩ := bind_eq_ok.mp h
    rw [State.reserveEntry] at reserve
    split at reserve
    · cases reserve
    · next free =>
      refine ⟨idle, not_isSome_iff_eq_none.mp free, ?_⟩
      rw [← Except.ok.inj eq, ← Except.ok.inj reserve]
      rfl
  · cases h

theorem writeEntry_ok (h : s.writeEntry crc32 ptr e clearcrc task = .ok after) :
    clearcrc = decide (e.type = internalLog) ∧
      after = {
        sw := { s.sw with
          crc := if clearcrc then 0 else logCrcUpdate crc32 (s.sw.stamped e clearcrc) s.sw.crc
          buffer := s.sw.buffer ++ frame (s.sw.stamped e clearcrc)
          nextAvailableLSN := nextEntry (s.sw.stamped e clearcrc)
          writeMutex := none }
        tasks := update s.tasks ptr task
        logged := s.logged ++ [s.sw.stamped e clearcrc] } := by
  obtain ⟨sw, write, eq⟩ := bind_eq_ok.mp h
  rw [State.writeLogEntryUnlocked] at write
  split at write
  · next kind =>
    refine ⟨kind, ?_⟩
    rw [← Except.ok.inj eq, ← Except.ok.inj write]
    rfl
  · cases write

theorem finish_ok (h : s.finish ptr thread lsn task = .ok after) :
    ∃ min, s.sw.minPending.remove thread ⟨ptr, lsn⟩ = some min ∧
      after = {
        sw := { s.sw with minPending := min }
        tasks := update s.tasks ptr task
        logged := s.logged } := by
  obtain ⟨sw, done, eq⟩ := bind_eq_ok.mp h
  rw [State.entryDone] at done
  split at done
  · next min removed =>
    refine ⟨min, removed, ?_⟩
    rw [← Except.ok.inj eq, ← Except.ok.inj done]
    rfl
  · cases done

end Steps

theorem crcEnd_eq (lsn : Int) : crcEnd lsn = lsn + 32 := by
  rw [crcEnd, lsnSize, rawSize]
  omega

theorem TaskInv.pending_lt (h : TaskInv sw logged ptr task) (free : sw.writeMutex = none)
    (pending : task.pending = some lsn) : lsn < sw.nextAvailableLSN := by
  cases task with
  | idle | crcDone _ _ | fflushed _ _ | fdatasynced _ _ => cases pending
  | reserved thread l | crcReserved thread l mode =>
    rw [h.2] at free
    cases free
  | written thread l =>
    cases pending
    exact h
  | crcWritten thread l mode =>
    cases pending
    have := h.1
    rw [crcEnd_eq] at this
    omega

section
variable (h : PendingInv sw tasks)
include h

variable {after : State}

theorem PendingInv.congr (min : after.minPending = sw.minPending)
    (same : ∀ ptr, (tasks' ptr).pending = (tasks ptr).pending) : PendingInv after tasks' :=
  ⟨min ▸ h.wellFormed, fun g => by rw [min, same]; exact h.member g⟩

theorem PendingInv.update (min : after.minPending = sw.minPending)
    (same : task.pending = (tasks ptr).pending) : PendingInv after (update tasks ptr task) := by
  exact h.congr min ((forall_update_iff tasks fun p t => t.pending = (tasks p).pending).mpr
    ⟨same, fun _ _ => rfl⟩)

theorem PendingInv.add (idle : tasks ptr = .idle)
    (new : ∀ p l, (tasks p).pending = some l → l ≠ lsn) (pending : task.pending = some lsn)
    (min : after.minPending = sw.minPending.add thread ⟨ptr, lsn⟩) :
    PendingInv after (Function.update tasks ptr task) := by
  refine ⟨min ▸ AggregateMin.add_wellFormed h.wellFormed thread fun g member =>
    new _ _ ((h.member g).mp member), fun g => ?_⟩
  rw [min, AggregateMin.add_member, h.member]
  by_cases own : g.ptr = ptr
  · rw [own, update_self, idle, pending]
    constructor
    · intro held
      cases held with
      | inl eq => rw [eq]
      | inr none => cases none
    · intro eq
      exact .inl (Handle.ext own (some.inj eq).symm)
  · rw [update_of_ne own]
    exact or_iff_right fun eq => own (congrArg Handle.ptr eq)

theorem PendingInv.remove (held : (tasks ptr).pending = some lsn) (gone : task.pending = none)
    {min : AggregateMin} (removed : sw.minPending.remove thread ⟨ptr, lsn⟩ = some min)
    (eq : after.minPending = min) : PendingInv after (Function.update tasks ptr task) := by
  obtain ⟨min', run, wellFormed, member⟩ :=
    AggregateMin.remove_spec h.wellFormed thread ((h.member ⟨ptr, lsn⟩).mpr held)
  obtain rfl : min' = min := some.inj (run.symm.trans removed)
  refine ⟨eq ▸ wellFormed, fun g => ?_⟩
  rw [eq, member, h.member]
  by_cases own : g.ptr = ptr
  · rw [own, update_self, gone, held]
    refine ⟨fun both => absurd ?_ both.2, fun none => by cases none⟩
    exact Handle.ext own (some.inj both.1).symm
  · rw [update_of_ne own]
    exact and_iff_left fun eq => own (congrArg Handle.ptr eq)

end

section Writing
variable {after : State}

theorem FileInv.write (h : FileInv crc32 sw logged) (lsn : e.LSN = sw.nextAvailableLSN)
    (storable : Storable e) (matching : e.type = internalLog → CrcMatches sw.crc e)
    (bytes : after.file ++ after.buffer = sw.file ++ sw.buffer ++ frame e)
    (offset : after.globalOffset = sw.globalOffset) (next : after.nextAvailableLSN = nextEntry e)
    (crc : after.crc = if e.type = internalLog then 0 else logCrcUpdate crc32 e sw.crc) :
    FileInv crc32 after (logged ++ [e]) := by
  refine ⟨?_, ?_, fun f mem => ?_, by rw [offset]; exact h.base, by rw [next]; exact storable.bound,
    (crcsOk_append _ _ _).mpr ⟨h.crcs, ?_⟩, ?_⟩
  · rw [bytes, h.bytes, offset, append_assoc, flatMap_append, flatMap_singleton]
  · rw [offset, next, nextEntry_eq, lsn]
    exact h.run.concat lsn (extent_pos storable.valid)
  · cases mem_append.mp mem with
    | inl old => exact h.storable f old
    | inr new => exact mem_singleton.mp new ▸ storable
  · rw [← h.crc, CrcsOk]
    split
    · next internal => exact ⟨matching internal, trivial⟩
    · trivial
  · rw [crcAfter_append, ← h.crc, crc, crcAfter]
    rfl

theorem Grows.write (lsn : e.LSN = sw.nextAvailableLSN) (valid : e.Valid)
    (file : after.file = sw.file) (synced : after.synced = sw.synced)
    (offset : after.globalOffset = sw.globalOffset) (next : after.nextAvailableLSN = nextEntry e)
    (softcommit : after.softcommit = sw.softcommit) :
    Grows sw logged after (logged ++ [e]) := by
  refine ⟨?_, fun x le h => h.append (by rw [lsn]; exact le),
    fun x _ h => by rw [offset, file]; exact h, fun x _ h => by rw [offset, synced]; exact h, softcommit⟩
  have := extent_pos valid
  rw [next, nextEntry_eq]
  omega

theorem stamped_lsn (sw : State) (e : RawLogEntry) (clearcrc : Bool) :
    (sw.stamped e clearcrc).LSN = e.LSN := by
  cases clearcrc <;> rfl

theorem stamped_type (sw : State) (e : RawLogEntry) (clearcrc : Bool) :
    (sw.stamped e clearcrc).type = e.type := by
  cases clearcrc <;> rfl

theorem toNat_crc_lt (crc : UInt32) : crc.toNat < 2 ^ 32 := crc.toNat_lt

theorem storable_crcEntry (sw : State) (nonneg : 0 ≤ lsn) (bound : crcEnd lsn < 2 ^ 63) :
    Storable (sw.stamped (crcEntry lsn) true) := by
  have dummy := storable_dummy nonneg bound
  have small := toNat_crc_lt sw.crc
  refine ⟨⟨dummy.valid.lsn, ?_, dummy.valid.xid, dummy.valid.type, rfl, dummy.valid.contents⟩, nonneg,
    dummy.bound⟩
  show -2 ^ 63 ≤ (sw.crc.toNat : Int) ∧ (sw.crc.toNat : Int) < 2 ^ 63
  omega

theorem nextEntry_crcEntry (sw : State) (lsn : Int) :
    nextEntry (sw.stamped (crcEntry lsn) true) = crcEnd lsn := nextEntry_dummy lsn

end Writing

namespace Inv
variable {after : Session}

section
variable (h : Inv crc32 s)
include h

theorem holder (holds : (s.tasks ptr).holds) : s.sw.writeMutex = some ptr := by
  have own := h.tasks ptr
  revert own holds
  cases s.tasks ptr with
  | reserved thread lsn | crcReserved thread lsn mode => exact fun _ own => own.2
  | _ => exact fun holds => holds.elim

theorem reserve (run : s.reserve ptr thread task = .ok after)
    (pending : task.pending = some s.sw.nextAvailableLSN)
    (own : ∀ sw : State, sw.nextAvailableLSN = s.sw.nextAvailableLSN → sw.writeMutex = some ptr →
      TaskInv sw s.logged ptr task) :
    Inv crc32 after := by
  obtain ⟨idle, free, rfl⟩ := reserve_ok run
  refine ⟨h.file.congr rfl rfl rfl rfl, ⟨h.read.clean, h.read.inFile, h.read.le⟩,
    h.marks.grow (.same rfl rfl rfl rfl rfl) rfl rfl h.marks.syncedLe h.marks.osync,
    (forall_update_iff s.tasks _).mpr ⟨own _ rfl rfl, fun p _ => ?_⟩,
    h.pending.add idle ?_ pending rfl⟩
  · refine (h.tasks p).grow (.same rfl rfl rfl rfl rfl) fun holds => ?_
    have := h.holder holds
    rw [free] at this
    cases this
  · intro p l held
    have := (h.tasks p).pending_lt free held
    omega

theorem writeEntry (run : s.writeEntry crc32 ptr e clearcrc task = .ok after)
    (holds : (s.tasks ptr).holds) (lsn : e.LSN = s.sw.nextAvailableLSN)
    (pending : task.pending = (s.tasks ptr).pending)
    (storable : Storable (s.sw.stamped e clearcrc))
    (own : FileInv crc32 after.sw after.logged → TaskInv after.sw after.logged ptr task) :
    Inv crc32 after := by
  have mutex := h.holder holds
  obtain ⟨kind, eq⟩ := writeEntry_ok run
  have stamp : (s.sw.stamped e clearcrc).LSN = s.sw.nextAvailableLSN :=
    (stamped_lsn ..).trans lsn
  have matching : (s.sw.stamped e clearcrc).type = internalLog →
      CrcMatches s.sw.crc (s.sw.stamped e clearcrc) := by
    intro internal
    rw [stamped_type] at internal
    rw [kind, decide_eq_true internal]
    have small := toNat_crc_lt s.sw.crc
    refine .inr ?_
    show (s.sw.crc.toNat : Int) = (s.sw.crc.toNat : Int) % 2 ^ 32
    omega
  have file : FileInv crc32 after.sw after.logged := by
    subst eq
    refine h.file.write stamp storable matching (append_assoc ..).symm rfl rfl ?_
    rw [stamped_type, kind]
    simp only [decide_eq_true_eq]
  have grows : Grows s.sw s.logged after.sw after.logged := by
    subst eq
    exact .write stamp storable.valid rfl rfl rfl rfl rfl
  have owned := own file
  subst eq
  refine ⟨file, ⟨h.read.clean.append (by rw [stamp]; exact h.read.le), h.read.inFile,
      le_trans h.read.le grows.next⟩,
    h.marks.grow grows rfl rfl h.marks.syncedLe h.marks.osync,
    (forall_update_iff s.tasks _).mpr ⟨owned, fun p same => ?_⟩, h.pending.update (by rfl) pending⟩
  refine (h.tasks p).grow grows fun other => ?_
  exact absurd (some.inj ((h.holder other).symm.trans mutex)) same

theorem finish (run : s.finish ptr thread lsn task = .ok after)
    (held : (s.tasks ptr).pending = some lsn) (gone : task.pending = none)
    (own : TaskInv s.sw s.logged ptr task) (released : ¬task.holds) : Inv crc32 after := by
  obtain ⟨min, removed, rfl⟩ := finish_ok run
  refine ⟨h.file.congr rfl rfl rfl rfl, ⟨h.read.clean, h.read.inFile, h.read.le⟩,
    h.marks.grow (.same rfl rfl rfl rfl rfl) rfl rfl h.marks.syncedLe h.marks.osync,
    (forall_update_iff s.tasks _).mpr ⟨?_, fun p _ => ?_⟩, h.pending.remove held gone removed rfl⟩
  · exact own.grow (.same rfl rfl rfl rfl rfl) fun holds => absurd holds released
  · exact (h.tasks p).grow (.same rfl rfl rfl rfl rfl) fun _ => ⟨rfl, rfl⟩

theorem flush (grows : Grows s.sw s.logged sw s.logged)
    (bytes : sw.file ++ sw.buffer = s.sw.file ++ s.sw.buffer)
    (offset : sw.globalOffset = s.sw.globalOffset)
    (next : sw.nextAvailableLSN = s.sw.nextAvailableLSN) (crc : sw.crc = s.sw.crc)
    (internal : sw.flushedLSNInternal = s.sw.flushedLSNInternal)
    (wal : sw.flushedLSNWal = s.sw.flushedLSNWal)
    (commit : sw.flushedLSNCommit = s.sw.flushedLSNCommit) (min : sw.minPending = s.sw.minPending)
    (mutex : sw.writeMutex = s.sw.writeMutex) (syncedLe : sw.synced ≤ sw.file.length)
    (osync : sw.osync → sw.synced = sw.file.length) : Inv crc32 { s with sw := sw } :=
  ⟨h.file.congr bytes offset next crc,
    ⟨internal ▸ h.read.clean, internal ▸ grows.file _ h.read.le h.read.inFile,
      internal ▸ next ▸ h.read.le⟩,
    h.marks.grow grows wal commit syncedLe osync,
    fun p => (h.tasks p).grow grows fun _ => ⟨next, mutex⟩,
    h.pending.congr min fun _ => rfl⟩

theorem setTask (own : TaskInv s.sw s.logged ptr task)
    (pending : task.pending = (s.tasks ptr).pending) : Inv crc32 (s.setTask ptr task) :=
  ⟨h.file, h.read, h.marks, (forall_update_iff s.tasks _).mpr ⟨own, fun p _ => h.tasks p⟩,
    h.pending.update (by rfl) pending⟩

theorem spill (n : Nat) : Inv crc32 { s with sw := s.sw.spill n } := by
  refine h.flush (.spill n h.marks.osync) ?_ rfl rfl rfl rfl rfl rfl rfl rfl ?_ (spill_osync n)
  · rw [State.spill]
    simp only [append_assoc, take_append_drop]
  · have le := h.marks.syncedLe
    show (if s.sw.osync then (s.sw.spill n).file.length else s.sw.synced) ≤ (s.sw.spill n).file.length
    split
    · exact le_rfl
    · show s.sw.synced ≤ (s.sw.file ++ s.sw.buffer.take n).length
      rw [length_append]
      omega

theorem fdatasync : Inv crc32 { s with sw := s.sw.fdatasync } := by
  have le := h.marks.syncedLe
  refine h.flush ⟨le_rfl, fun _ _ h => h, fun _ _ h => h, fun x _ low => ?_, rfl⟩ rfl rfl rfl rfl
    rfl rfl rfl rfl rfl le_rfl fun _ => rfl
  show x ≤ s.sw.globalOffset + s.sw.file.length
  omega

theorem syncFile (mode : ForceMode) : Inv crc32 { s with sw := s.sw.syncFile mode } := by
  rw [State.syncFile]
  split
  · exact h.fdatasync
  · exact h

theorem syncInternal : Inv crc32 { s with sw := s.sw.syncLogInternal } := by
  have read := h.read.syncLogInternal h.file
  rw [State.syncLogInternal] at read ⊢
  split
  · next behind =>
    rw [if_pos behind] at read
    have flushed := h.spill s.sw.buffer.length
    exact ⟨flushed.file.congr rfl rfl rfl rfl, read,
      flushed.marks.grow (.same rfl rfl rfl rfl rfl) rfl rfl flushed.marks.syncedLe
        flushed.marks.osync,
      fun p => (flushed.tasks p).grow (.same rfl rfl rfl rfl rfl) fun _ => ⟨rfl, rfl⟩,
      flushed.pending.congr rfl fun _ => rfl⟩
  · exact h

theorem publish (forced : Forced s.sw s.logged lsn)
    (inFile : crcEnd lsn ≤ s.sw.globalOffset + s.sw.file.length)
    (durable : ¬s.sw.softcommit ∨ mode = .wal → crcEnd lsn ≤ s.sw.globalOffset + s.sw.synced) :
    Inv crc32 { s with sw := s.sw.publish mode (crcEnd lsn) } := by
  -- every mark stays or moves to the end of the checksum
  refine ⟨h.file.congr rfl rfl rfl rfl, ⟨?_, ?_, ?_⟩, ⟨?_, ?_, ?_, ?_, ?_, h.marks.syncedLe,
    h.marks.osync⟩, fun p => (h.tasks p).grow (.same rfl rfl rfl rfl rfl) fun _ => ⟨rfl, rfl⟩,
    h.pending.congr rfl fun _ => rfl⟩
  · exact max_rec' _ h.read.clean (forced.2.clean h.file.run)
  · exact max_le h.read.inFile inFile
  · exact max_le h.read.le forced.1
  · show Covered s.logged (if _ then _ else _)
    split
    · exact max_rec' _ h.marks.wal forced.2
    · exact h.marks.wal
  · show (if _ then _ else _) ≤ s.sw.nextAvailableLSN
    split
    · exact max_le h.marks.walLe forced.1
    · exact h.marks.walLe
  · show (if _ then _ else _) ≤ s.sw.globalOffset + s.sw.synced
    split
    · next sync => exact max_le h.marks.walSynced (durable sync)
    · exact h.marks.walSynced
  · exact max_rec' _ h.marks.commit forced.2
  · exact max_le h.marks.commitLe forced.1

end

theorem opened {next : Int} {file : List UInt8} (closed : Closed logged)
    (h : FileInv crc32 (openedAt softcommit osync globalOffset next file) logged) :
    Inv crc32 ⟨openedAt softcommit osync globalOffset next file, fun _ => .idle, logged⟩ := by
  have length : next ≤ globalOffset + file.length := by
    have := h.length
    rw [openedAt] at this
    simp only [length_nil] at this
    omega
  have covered : Covered logged next := closed.covered h.run
  exact ⟨h, ⟨clean_end h.run, length, le_rfl⟩,
    ⟨covered, le_rfl, length, covered, le_rfl, le_rfl, fun _ => rfl⟩,
    fun _ => trivial, ⟨AggregateMin.init_wellFormed, fun h =>
      iff_of_false (AggregateMin.not_member_init h) (some_ne_none _).symm⟩⟩

theorem reopen (h : Inv crc32 s) (header : lsnSize ≤ n) (run : s.reopen crc32 stale n = .ok after) :
    Inv crc32 after := by
  obtain ⟨sw, opened, eq⟩ := bind_eq_ok.mp run
  rw [safeWritesOpen_eq h.file s.sw.softcommit s.sw.osync stale header] at opened
  cases read : readLogEntry stale (tornEnd s.logged n) with
  | error e =>
    rw [read] at opened
    cases opened
  | ok r =>
    rw [read] at opened
    obtain ⟨_, _, _, _, closed, _⟩ := h.file.recovered_split n
    have inv := Inv.opened closed (h.file.reopen s.sw.softcommit s.sw.osync n)
    rw [← Except.ok.inj eq, ← Except.ok.inj opened]
    exact inv

section
variable (h : Inv crc32 s) {LSN : Int} (allowed : (Op.truncate stale LSN).Allowed s)
  (run : s.truncate stale LSN = .ok after)
include h allowed run

theorem truncate_cases :
    after = s ∨ s.sw.globalOffset + lsnSize < LSN ∧ Boundary s.sw s.logged LSN ∧
      s.sw.writeMutex = none ∧ ∃ internal, (internal = s.sw.flushedLSNInternal ∨
        internal = s.sw.nextAvailableLSN) ∧
        after = ⟨truncated s.sw s.logged LSN internal, s.tasks, kept s.sw s.logged LSN⟩ := by
  obtain ⟨sw, truncate, eq⟩ := bind_eq_ok.mp run
  by_cases above : s.sw.globalOffset + lsnSize ≥ LSN
  · rw [State.truncateLog, if_pos above] at truncate
    rw [if_pos above, ← Except.ok.inj truncate] at eq
    exact .inl (Except.ok.inj eq).symm
  · have entry := allowed.1.resolve_left above
    cases mutex : s.sw.writeMutex with
    | some p =>
      rw [State.truncateLog, if_neg above, mutex] at truncate
      cases truncate
    | none =>
      obtain ⟨internal, which, spec⟩ :=
        truncateLog_spec h.file entry stale h.read mutex (not_le.mp above) allowed.2
      rw [if_neg above, ← Except.ok.inj (spec.symm.trans truncate)] at eq
      exact .inr ⟨not_le.mp above, entry, rfl, internal, which, (Except.ok.inj eq).symm⟩

theorem truncate : Inv crc32 after := by
  obtain rfl | ⟨above, entry, mutex, internal, which, rfl⟩ := h.truncate_cases allowed run
  · exact h
  · have file := truncated_fileInv h.file entry above allowed.2 internal
    have grows : Grows s.sw s.logged (truncated s.sw s.logged LSN internal)
        (kept s.sw s.logged LSN) := .truncated h.file entry above allowed.2
    have internalLe : internal ≤ s.sw.nextAvailableLSN :=
      which.elim (fun eq => eq ▸ h.read.le) Int.le_of_eq
    have clean : Clean s.logged internal := by
      cases which with
      | inl old => rw [old]; exact h.read.clean
      | inr next => rw [next]; exact clean_end h.file.run
    have filtered : Clean (s.logged.filter fun e => LSN ≤ e.LSN) internal :=
      fun e mem => clean e (mem_filter.mp mem).1
    refine ⟨file, ⟨(filtered.shape (clearFirst_shape _)).append internalLe, ?_,
        le_trans internalLe grows.next⟩,
      h.marks.grow grows rfl rfl le_rfl fun _ => rfl,
      fun p => (h.tasks p).grow grows fun holds => ?_, h.pending.congr rfl fun _ => rfl⟩
    · exact le_trans (le_trans internalLe grows.next) (Int.le_of_eq file.length.symm)
    · rw [h.holder holds] at mutex
      cases mutex

end

theorem nonneg (h : Inv crc32 s) : 0 ≤ s.sw.nextAvailableLSN := by
  have := h.file.run.le
  have := h.file.base
  omega

theorem step (h : Inv crc32 s) {op : Op} (allowed : op.Allowed s)
    (run : op.run crc32 s = .ok after) : Inv crc32 after := by
  cases op with
  | reserve ptr thread => exact h.reserve run rfl fun _ next mutex => ⟨next.symm, mutex⟩
  | forceReserve ptr thread mode =>
    exact h.reserve run rfl fun _ next mutex => ⟨next.symm, mutex⟩
  | write ptr e =>
    simp only [Op.run] at run
    split at run
    · next thread lsn task =>
      have own := h.tasks ptr
      rw [task] at own
      have lsnEq : lsn = s.sw.nextAvailableLSN := own.1
      have fits : (Task.reserved thread lsn).Fits e := task ▸ allowed
      refine h.writeEntry run (by rw [task]; trivial) own.1 (by rw [task]; rfl)
        ⟨fits.1, lsnEq ▸ h.nonneg, fits.2⟩ fun file => ?_
      obtain ⟨_, rfl⟩ := writeEntry_ok run
      have pos := extent_pos fits.1
      exact Int.lt_add_of_pos_right lsn pos
    · cases run
  | done ptr =>
    simp only [Op.run] at run
    split at run
    · next thread lsn task => exact h.finish run (by rw [task]; rfl) rfl trivial id
    · cases run
  | forceWrite ptr =>
    simp only [Op.run] at run
    split at run
    · next thread lsn mode task =>
      have own := h.tasks ptr
      rw [task] at own
      have lsnEq : lsn = s.sw.nextAvailableLSN := own.1
      refine h.writeEntry run (by rw [task]; trivial) own.1 (by rw [task]; rfl)
        (storable_crcEntry s.sw (lsnEq ▸ h.nonneg) (lsnEq ▸ allowed)) fun file => ?_
      obtain ⟨_, rfl⟩ := writeEntry_ok run
      have next := nextEntry_crcEntry s.sw lsn
      have closed : Closed (s.logged ++ [s.sw.stamped (crcEntry lsn) true]) :=
        .inr ⟨_, _, rfl, rfl⟩
      exact ⟨Int.le_of_eq next.symm, next ▸ closed.covered file.run⟩
    · cases run
  | forceDone ptr =>
    simp only [Op.run] at run
    split at run
    · next thread lsn mode task =>
      have own := h.tasks ptr
      rw [task] at own
      exact h.finish run (by rw [task]; rfl) rfl own id
    · cases run
  | forceFlush ptr =>
    simp only [Op.run] at run
    split at run
    · next lsn mode task =>
      have own := h.tasks ptr
      rw [task] at own
      cases run
      have flushed := h.spill s.sw.buffer.length
      refine flushed.setTask ⟨own, ?_⟩ (by rw [task]; rfl)
      have length := h.file.length
      have le := own.1
      show crcEnd lsn ≤ s.sw.globalOffset + s.sw.fflush.file.length
      rw [fflush_file, length_append]
      omega
    · cases run
  | forceSync ptr =>
    simp only [Op.run] at run
    split at run
    · next lsn mode task =>
      have own := h.tasks ptr
      rw [task] at own
      cases run
      refine (h.syncFile mode).setTask ?_ (by rw [task]; rfl)
      rw [State.syncFile]
      split
      · exact ⟨own.1, own.2, fun _ => own.2⟩
      · next skipped =>
        refine ⟨own.1, own.2, fun durable => ?_⟩
        rw [not_or, not_not] at skipped
        have hard : ¬s.sw.softcommit := fun soft => by
          cases durable with
          | inl hard => exact hard soft
          | inr wal => exact skipped.1 ⟨soft, wal⟩
        have sync : s.sw.osync := skipped.2.resolve_left hard
        rw [h.marks.osync sync]
        exact own.2
    · cases run
  | forcePublish ptr =>
    simp only [Op.run] at run
    split at run
    · next lsn mode task =>
      have own := h.tasks ptr
      rw [task] at own
      cases run
      exact (h.publish own.1 own.2.1 own.2.2).setTask trivial (by rw [task]; rfl)
    · cases run
  | spill n =>
    cases run
    exact h.spill n
  | syncInternal =>
    cases run
    exact h.syncInternal
  | truncate stale LSN => exact h.truncate allowed run
  | reopen stale n => exact h.reopen allowed run

end Inv

/-- The sessions that are reached from a new log. -/
inductive Reached (crc32 : List UInt8 → UInt32 → UInt32) : Session → Prop
  | created (softcommit osync : Bool) : Reached crc32 (created softcommit osync)
  | step {s after : Session} (before : Reached crc32 s) (op : Op) (allowed : op.Allowed s)
      (run : op.run crc32 s = .ok after) : Reached crc32 after

section
variable (h : Reached crc32 s)
include h

theorem Reached.steps {after : Session} {ops : List Op}
    (run : ops.foldlM (Session.runAllowed crc32) s = .ok after) : Reached crc32 after :=
  foldlM_guarded h (fun _ op _ h allowed => h.step op allowed) run

theorem Reached.inv : Inv crc32 s := by
  induction h with
  | created softcommit osync =>
    exact .opened (.inl rfl) ⟨rfl, rfl, fun e mem => absurd mem not_mem_nil, Int.le_refl 0,
      show (8 : Int) < 2 ^ 63 by decide, trivial, rfl⟩
  | step _ op allowed run ih => exact ih.step allowed run

end

end Stasis.SafeWrites
