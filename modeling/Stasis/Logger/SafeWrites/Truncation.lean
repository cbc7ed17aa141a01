import Stasis.Logger.SafeWrites.Progress

/-!
What a truncation of the safe writes log keeps.

All entries from the truncation point on are read as before, apart from the checksum that is
cleared, and numbers more than a word in front of it are reported to be gone. The new file
can be opened at once, and again after any further use of the log, since it ends with a
checksum whenever the log is closed.
-/
namespace Stasis.SafeWrites
open LittleEndian RawLogEntry Tiling Fallible Frames Function List

/-- The first entry with a checksum from `LSN` on. -/
def FirstCrc (logged : List RawLogEntry) (LSN : Int) (e : RawLogEntry) : Prop :=
  e.type = internalLog ∧ ∀ f ∈ logged, LSN ≤ f.LSN ∧ f.type = internalLog → e.LSN ≤ f.LSN

instance (logged : List RawLogEntry) (LSN : Int) (e : RawLogEntry) :
    Decidable (FirstCrc logged LSN e) :=
  inferInstanceAs (Decidable (_ ∧ ∀ f ∈ logged, _ → _))

/-- What a truncation at `LSN` makes of an entry. -/
def afterTruncation (logged : List RawLogEntry) (LSN : Int) (e : RawLogEntry) : RawLogEntry :=
  if FirstCrc logged LSN e then { e with prevLSN := 0 } else e

section Keep
variable {LSN : Int}

theorem firstCrc_filter :
    FirstCrc (l.filter fun f => LSN ≤ f.LSN) LSN e ↔ FirstCrc l LSN e := by
  refine and_congr_right fun _ => ⟨fun h f mem low => ?_, fun h f mem low => ?_⟩
  · exact h f (mem_filter.mpr ⟨mem, decide_eq_true low.1⟩) low
  · exact h f (mem_filter.mp mem).1 low

theorem mem_clearFirst (run : Run a l b) (low : LSN ≤ a) (mem : e ∈ l) :
    afterTruncation l LSN e ∈ clearFirst l := by
  induction l generalizing a with
  | nil => exact absurd mem not_mem_nil
  | cons g l ih =>
    have first : g.LSN = a := run.1
    have pos : 0 < extent g := run.2.1
    have behind : ∀ f ∈ l, g.LSN < f.LSN := fun f held => by
      have := run.2.2.bounds held
      omega
    rw [clearFirst]
    cases mem_cons.mp mem with
    | inl same =>
      subst same
      split
      · next internal =>
        have holds : FirstCrc (e :: l) LSN e := by
          refine ⟨internal, fun f held _ => ?_⟩
          cases mem_cons.mp held with
          | inl eq => exact Int.le_of_eq (congrArg RawLogEntry.LSN eq.symm)
          | inr later => exact le_of_lt (behind f later)
        rw [afterTruncation, if_pos holds]
        exact mem_cons_self
      · next plain =>
        rw [afterTruncation, if_neg fun holds => plain holds.1]
        exact mem_cons_self
    | inr later =>
      split
      · next internal =>
        have fails : ¬FirstCrc (g :: l) LSN e := fun holds => by
          have := holds.2 g mem_cons_self ⟨by omega, internal⟩
          have := behind e later
          omega
        rw [afterTruncation, if_neg fails]
        exact mem_cons_of_mem _ later
      · next plain =>
        have same : FirstCrc (g :: l) LSN e ↔ FirstCrc l LSN e := by
          refine and_congr_right fun _ => ⟨fun h f held => h f (mem_cons_of_mem g held),
            fun h f held lowF => ?_⟩
          cases mem_cons.mp held with
          | inl eq => exact absurd (eq ▸ lowF.2) plain
          | inr held => exact h f held lowF
        have kept := ih run.2.2 (by omega) later
        rw [afterTruncation] at kept ⊢
        simp only [same]
        exact mem_cons_of_mem g kept

end Keep

theorem safeWritesOpen_closed (h : FileInv crc32 sw logged) (closed : Closed logged)
    (softcommit osync : Bool) (stale : Int) :
    ∃ opened, safeWritesOpen crc32 softcommit osync stale (sw.file ++ sw.buffer) = .ok opened ∧
      opened.nextAvailableLSN = sw.nextAvailableLSN := by
  obtain ⟨n, length⟩ : ∃ n, n = (sw.file ++ sw.buffer).length := ⟨_, rfl⟩
  have total : n = lsnSize + (logged.flatMap frame).length := by
    rw [length, h.bytes, length_append, length_encodeInt]
  have whole : cut frame (n - lsnSize) logged = logged ∧ tornEnd logged n = [] := by
    refine (cut_torn frame _ logged).resolve_right fun ⟨r, later, k, split, short, count, _⟩ => ?_
    have size : (logged.flatMap frame).length = _ :=
      congrArg (fun l => (l.flatMap frame).length) split
    simp only [flatMap_append, flatMap_cons, length_append] at size
    omega
  have opened := safeWritesOpen_eq h softcommit osync stale (n := n) (by omega)
  rw [whole.2, readLogEntry_nil, length, take_length, ← length] at opened
  refine ⟨_, opened, ?_⟩
  show lastCrc _ (cut _ _ _) = _
  rw [whole.1, Int.add_comm]
  exact closed.lastCrc h.run

theorem FileInv.mem_kept (h : FileInv crc32 sw logged) {LSN : Int}
    (entry : Boundary sw logged LSN) (held : f ∈ logged) (low : LSN ≤ f.LSN) :
    afterTruncation logged LSN f ∈ kept sw logged LSN := by
  obtain ⟨front, _, _, back⟩ := h.split_filter entry
  have first := mem_clearFirst back le_rfl
    (mem_filter.mpr ⟨held, decide_eq_true low⟩)
  rw [afterTruncation] at first ⊢
  simp only [firstCrc_filter] at first
  exact mem_append_left _ first

theorem afterTruncation_lsn (LSN : Int) (f : RawLogEntry) :
    (afterTruncation logged LSN f).LSN = f.LSN := by
  rw [afterTruncation]
  split <;> rfl

theorem Inv.forceDone_runs (h : Inv crc32 s) (task : s.tasks ptr = .crcWritten thread lsn mode) :
    ∃ after, (Op.forceDone ptr).run crc32 s = .ok after ∧ after.tasks ptr = .crcDone lsn mode ∧
      after.logged = s.logged := by
  have member : s.sw.minPending.Member ⟨ptr, lsn⟩ :=
    (h.pending.member ⟨ptr, lsn⟩).mpr (by rw [task]; rfl)
  obtain ⟨min, removed, _⟩ := AggregateMin.remove_spec h.pending.wellFormed thread member
  refine ⟨{ s with sw := { s.sw with minPending := min } }.setTask ptr (.crcDone lsn mode), ?_,
    update_self .., rfl⟩
  rw [Op.run]
  simp only [task, Session.finish, State.entryDone, removed]
  rfl

theorem forceReserve_runs (crc32 : List UInt8 → UInt32 →
      UInt32) (thread : Nat) (mode : ForceMode) (idle : s.tasks ptr = .idle)
    (free : s.sw.writeMutex = none) :
    ∃ after, (Op.forceReserve ptr thread mode).run crc32 s = .ok after ∧
      after.tasks ptr = .crcReserved thread s.sw.nextAvailableLSN mode ∧
      after.sw.nextAvailableLSN = s.sw.nextAvailableLSN := by
  refine ⟨{ s with
      sw := { s.sw with
        writeMutex := some ptr
        minPending := s.sw.minPending.add thread ⟨ptr, s.sw.nextAvailableLSN⟩ }
      }.setTask ptr (.crcReserved thread s.sw.nextAvailableLSN mode), ?_, update_self .., rfl⟩
  rw [Op.run, Session.reserve, idle]
  simp only [State.reserveEntry, free, Option.isSome_none, Bool.false_eq_true, if_false]
  rfl

theorem forceWrite_runs (crc32 : List UInt8 → UInt32 → UInt32)
    (task : s.tasks ptr = .crcReserved thread lsn mode) :
    ∃ after, (Op.forceWrite ptr).run crc32 s = .ok after ∧
      after.tasks ptr = .crcWritten thread lsn mode ∧ Closed after.logged := by
  have internal : true = decide ((crcEntry lsn).type = internalLog) := rfl
  refine ⟨{ s with
      sw := { s.sw with
        crc := 0
        buffer := s.sw.buffer ++ frame (s.sw.stamped (crcEntry lsn) true)
        nextAvailableLSN := nextEntry (s.sw.stamped (crcEntry lsn) true)
        writeMutex := none }
      logged := s.logged ++ [s.sw.stamped (crcEntry lsn) true] }.setTask ptr
        (.crcWritten thread lsn mode), ?_, update_self .., .inr ⟨_, _, rfl, rfl⟩⟩
  rw [Op.run, task]
  simp only [Session.writeEntry, State.writeLogEntryUnlocked]
  rfl

theorem Inv.syncLog_runs (h : Inv crc32 s) (thread : Nat) (mode : ForceMode)
    (idle : s.tasks ptr = .idle) (free : s.sw.writeMutex = none)
    (bound : crcEnd s.sw.nextAvailableLSN < 2 ^ 63) :
    ∃ after, s.syncLog crc32 ptr thread mode = .ok after ∧ Inv crc32 after ∧ Closed after.logged := by
  obtain ⟨s1, run1, task1, next1⟩ := forceReserve_runs crc32 thread mode idle free
  have allowed1 : (Op.forceReserve ptr thread mode).Allowed s := trivial
  have inv1 := h.step allowed1 run1
  obtain ⟨s2, run2, task2, closed⟩ := forceWrite_runs crc32 task1
  have allowed2 : (Op.forceWrite ptr).Allowed s1 := by
    rw [Op.Allowed, next1]
    exact bound
  have inv2 := inv1.step allowed2 run2
  obtain ⟨s3, run3, task3, logged3⟩ := inv2.forceDone_runs task2
  have allowed3 : (Op.forceDone ptr).Allowed s2 := trivial
  have inv3 := inv2.step allowed3 run3
  obtain ⟨s4, run4, task4, logged4⟩ : ∃ s4, (Op.forceFlush ptr).run crc32 s3 = .ok s4 ∧
      s4.tasks ptr = .fflushed s.sw.nextAvailableLSN mode ∧ s4.logged = s3.logged :=
    ⟨{ s3 with sw := s3.sw.fflush }.setTask ptr (.fflushed s.sw.nextAvailableLSN mode),
      by rw [Op.run, task3], update_self .., rfl⟩
  have allowed4 : (Op.forceFlush ptr).Allowed s3 := trivial
  have inv4 := inv3.step allowed4 run4
  obtain ⟨s5, run5, task5, logged5⟩ : ∃ s5, (Op.forceSync ptr).run crc32 s4 = .ok s5 ∧
      s5.tasks ptr = .fdatasynced s.sw.nextAvailableLSN mode ∧ s5.logged = s4.logged :=
    ⟨{ s4 with sw := s4.sw.syncFile mode }.setTask ptr (.fdatasynced s.sw.nextAvailableLSN mode),
      by rw [Op.run, task4], update_self .., rfl⟩
  have allowed5 : (Op.forceSync ptr).Allowed s4 := trivial
  have inv5 := inv4.step allowed5 run5
  obtain ⟨s6, run6, logged6⟩ : ∃ s6, (Op.forcePublish ptr).run crc32 s5 = .ok s6 ∧
      s6.logged = s5.logged :=
    ⟨{ s5 with sw := s5.sw.publish mode (crcEnd s.sw.nextAvailableLSN) }.setTask ptr .idle,
      by rw [Op.run, task5], rfl⟩
  have allowed6 : (Op.forcePublish ptr).Allowed s5 := trivial
  refine ⟨s6, ?_, inv5.step allowed6 run6, ?_⟩
  · simp only [Session.syncLog, foldlM_cons, foldlM_nil]
    refine bind_ok run1 (bind_ok run2 (bind_ok run3 ?_))
    exact bind_ok run4 (bind_ok run5 (bind_ok run6 rfl))
  · rw [logged6, logged5, logged4, logged3]
    exact closed

theorem Inv.truncate_runs (h : Inv crc32 s) (free : s.sw.writeMutex = none) (stale : Int)
    (above : s.sw.globalOffset + lsnSize < lsn) (entry : Boundary s.sw s.logged lsn)
    (bound : crcEnd s.sw.nextAvailableLSN < 2 ^ 63) :
    ∃ internal, s.truncate stale lsn =
      .ok ⟨truncated s.sw s.logged lsn internal, s.tasks, kept s.sw s.logged lsn⟩ := by
  obtain ⟨internal, _, spec⟩ := truncateLog_spec h.file entry stale h.read free above bound
  refine ⟨internal, ?_⟩
  rw [Session.truncate, spec, if_neg (not_le.mpr above)]
  rfl

/-- A truncation keeps the log from `e` on. Numbers that are more than a word in front of it,
and so all that started an entry, are gone for good. The new file is opened with the next number
of the log. Later, the entries are still there, and the log can be closed and opened. -/
theorem truncate_keeps_suffix {crc32 : List UInt8 → UInt32 → UInt32} {s : Session}
    (h : Reached crc32 s) {e : RawLogEntry} (mem : e ∈ s.logged)
    (above : s.sw.globalOffset + lsnSize < e.LSN) (free : s.sw.writeMutex = none)
    (bound : crcEnd s.sw.nextAvailableLSN < 2 ^ 63) (stale : Int) :
    ∃ after, (Op.truncate stale e.LSN).run crc32 s = .ok after ∧ Reached crc32 after ∧
      (∀ f ∈ s.logged, e.LSN ≤ f.LSN →
        (∃ sw, s.sw.readLSNEntry stale f.LSN = .ok (sw, some f)) ∧
        ∃ sw, after.sw.readLSNEntry stale f.LSN =
          .ok (sw, some (afterTruncation s.logged e.LSN f))) ∧
      (∀ x later, Continues crc32 x after later → ∀ L < e.LSN - lsnSize,
        ∃ sw, later.sw.readLSNEntry stale L = .ok (sw, none)) ∧
      (∀ f ∈ s.logged, f.LSN < e.LSN → f.LSN < e.LSN - lsnSize) ∧
      (∀ softcommit osync, ∃ opened,
        safeWritesOpen crc32 softcommit osync stale after.sw.file = .ok opened ∧
        opened.nextAvailableLSN = after.sw.nextAvailableLSN) ∧
      (∀ f ∈ s.logged, e.LSN ≤ f.LSN → ∀ later, Continues crc32 f.LSN after later →
        ∃ sw g, later.sw.readLSNEntry stale f.LSN = .ok (sw, some g) ∧ SameEntry f g) ∧
      ∀ x later, Continues crc32 x after later → ∀ ptr thread softcommit osync,
        later.tasks ptr = .idle → later.sw.writeMutex = none →
        crcEnd later.sw.nextAvailableLSN < 2 ^ 63 → ∃ closed opened,
          later.closeLog crc32 ptr thread = .ok closed ∧
          safeWritesOpen crc32 softcommit osync stale closed.sw.file = .ok opened ∧
          opened.nextAvailableLSN = closed.sw.nextAvailableLSN := by
  have inv := h.inv
  have entry : Boundary s.sw s.logged e.LSN := .inl ⟨e, mem, rfl⟩
  obtain ⟨internal, run⟩ := inv.truncate_runs free stale above entry bound
  have allowed : (Op.truncate stale e.LSN).Allowed s := ⟨.inr entry, bound⟩
  have reached := h.step _ allowed run
  have file := reached.inv.file
  refine ⟨_, run, reached, fun f held low => ⟨⟨_, readLSNEntry_entry inv.file inv.read held⟩, ?_⟩,
    fun x later continues L low => ?_, fun f held low => ?_,
    fun softcommit osync => ?_, fun f held low later continues => ?_,
    fun x later continues ptr thread softcommit osync idle free bound => ?_⟩
  · have copied := inv.file.mem_kept entry held low
    have read : (truncated s.sw s.logged e.LSN internal).readLSNEntry stale _ = _ :=
      readLSNEntry_entry file reached.inv.read copied
    rw [afterTruncation_lsn] at read
    exact ⟨_, read⟩
  · have offset := lt_of_lt_of_le low (continues.offset reached)
    have inv := (continues.reached reached).inv
    refine ⟨_, (readLSNEntry_inside inv.read ?_).trans (if_pos offset)⟩
    exact lt_of_lt_of_le offset
      (le_trans (Int.le_add_of_nonneg_right (Int.natCast_nonneg _)) inv.file.run.le)
  · -- the entry in front is longer than a word
    have order := inv.file.run.before held mem low
    have size := extent_eq (inv.file.storable f held).valid
    have raw : rawSize = 24 := rfl
    omega
  · have closed : Closed (kept s.sw s.logged e.LSN) := .inr ⟨_, _, rfl, rfl⟩
    have opened := safeWritesOpen_closed file closed softcommit osync stale
    rwa [show (truncated s.sw s.logged e.LSN internal).file ++
      (truncated s.sw s.logged e.LSN internal).buffer = _ from append_nil _] at opened
  · obtain ⟨g, copied, same⟩ := (inv.advance allowed low run).entries f f le_rfl held (.inl rfl)
    obtain ⟨g, copied, same⟩ := continues.entries reached le_rfl copied same
    have inv := (continues.reached reached).inv
    have read : later.sw.readLSNEntry stale _ = _ := readLSNEntry_entry inv.file inv.read copied
    rw [same.lsn] at read
    exact ⟨_, g, read, same⟩
  · obtain ⟨synced, run, inv, closed⟩ :=
      (continues.reached reached).inv.syncLog_runs thread .wal idle free bound
    obtain ⟨opened, eq, next⟩ := safeWritesOpen_closed inv.file closed softcommit osync stale
    refine ⟨{ synced with sw := synced.sw.fflush }, opened, ?_, ?_, next⟩
    · rw [Session.closeLog, run]
      rfl
    · show safeWritesOpen crc32 softcommit osync stale synced.sw.fflush.file = .ok opened
      rw [fflush_file]
      exact eq

/-- Two commit records. -/
def twoCommits : List Op :=
  [.reserve 1 1, .write 1 ⟨0, -1, 1, xcommit, []⟩, .done 1,
    .reserve 1 1, .write 1 ⟨0, -1, 2, xcommit, []⟩, .done 1]

theorem twoCommits_reached (crc32 : List UInt8 → UInt32 → UInt32) :
    ∃ s, Reached crc32 s ∧ s.logged = [⟨8, -1, 1, xcommit, []⟩, ⟨40, -1, 2, xcommit, []⟩] ∧
      s.sw.globalOffset = 0 ∧ s.sw.writeMutex = none ∧ s.sw.nextAvailableLSN = 72 := by
  have run : twoCommits.foldlM (Session.runAllowed crc32) (created false false) = .ok _ := rfl
  exact ⟨_, (Reached.created false false).steps run, rfl, rfl, rfl, rfl⟩

/-- The second record is read after a truncation at it. -/
theorem truncate_keeps_second : ∃ s after : Session,
    (Op.truncate 0 40).run (fun _ crc => crc) s = .ok after ∧
      ∃ sw, after.sw.readLSNEntry 0 40 = .ok (sw, some ⟨40, -1, 2, xcommit, []⟩) := by
  obtain ⟨s, reached, logged, offset, free, next⟩ := twoCommits_reached fun _ crc => crc
  have mem : (⟨40, -1, 2, xcommit, []⟩ : RawLogEntry) ∈ s.logged := by
    rw [logged]
    exact mem_cons_of_mem _ mem_cons_self
  obtain ⟨after, run, _, reads, _⟩ := truncate_keeps_suffix reached mem (by rw [offset]; decide) free
    (by rw [next]; decide) 0
  exact ⟨s, after, run, (reads _ mem le_rfl).2⟩

/-- The word in front of the truncation point is the header of the file. Reading there takes
the offset of the file for the size of an entry. -/
theorem truncate_word_in_front : ∃ s after, Reached (fun _ crc => crc) s ∧
    (∃ e ∈ s.logged, e.LSN = 40) ∧ s.sw.globalOffset + lsnSize < 40 ∧
      (Op.truncate 0 40).run (fun _ crc => crc) s = .ok after ∧
      ∃ sw g, after.sw.readLSNEntry 0 32 = .ok (sw, some g) := by
  generalize (fun _ crc => crc : List UInt8 → UInt32 → UInt32) = crc32
  obtain ⟨s, reached, logged, offset, free, next⟩ := twoCommits_reached crc32
  have entry : ∃ e ∈ s.logged, e.LSN = 40 := by
    rw [logged]
    exact ⟨_, mem_cons_of_mem _ mem_cons_self, rfl⟩
  have above : s.sw.globalOffset + lsnSize < 40 := by
    rw [offset]
    decide
  have bound : crcEnd s.sw.nextAvailableLSN < 2 ^ 63 := by
    rw [next]
    decide
  obtain ⟨internal, run⟩ := reached.inv.truncate_runs free 0 above (.inl entry) bound
  have allowed : (Op.truncate 0 40).Allowed s := ⟨.inr (.inl entry), bound⟩
  have read := (reached.step _ allowed run).inv.read
  have nextAfter : (truncated s.sw s.logged 40 internal).nextAvailableLSN = 104 := by
    show crcEnd s.sw.nextAvailableLSN = 104
    rw [next]
    decide
  have file : ((truncated s.sw s.logged 40 internal).readSynced 32).file =
      encodeInt lsnSize 32 ++ [⟨40, -1, 2, xcommit, []⟩, State.logCrcDummyEntry 72].flatMap frame := by
    rw [readSynced_file (show (truncated s.sw s.logged 40 internal).buffer = [] from rfl)]
    show encodeInt lsnSize 32 ++ (kept s.sw s.logged 40).flatMap frame = _
    rw [kept, logged, next]
    rfl
  obtain ⟨found, garbage, isSome⟩ : ∃ found, readLogEntry 0 (encodeInt lsnSize 32 ++
      [⟨40, -1, 2, xcommit, []⟩, State.logCrcDummyEntry 72].flatMap frame) = .ok found ∧
        found.isSome := by
    decide
  obtain ⟨⟨g, rest⟩, rfl⟩ := Option.isSome_iff_exists.mp isSome
  refine ⟨s, _, reached, entry, above, run, (truncated s.sw s.logged 40 internal).readSynced 32, g, ?_⟩
  have offset : (truncated s.sw s.logged 40 internal).globalOffset = 32 := rfl
  rw [readLSNEntry_inside read (by rw [nextAfter]; decide), file, offset, if_neg (by decide),
    Int.sub_self, Int.toNat_zero, drop_zero, garbage]

end Stasis.SafeWrites
