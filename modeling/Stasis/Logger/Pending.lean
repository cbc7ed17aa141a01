import Stasis.Logger.FilePool.Straddle
import Stasis.Logger.SafeWrites.Invariant

/-!
The first pending number of the logs.

An entry is pending from its reservation until `write_entry_done`; in between, it is written
to the log and then applied to its page. The safe writes log keeps the least number of the
pending entries. The file pool has a tail for the entries that are not written and one for
those that are not done, and reports the first: an entry that is written and not yet done is
behind it.
-/
namespace Stasis
open Fallible

namespace SafeWrites

theorem Inv.firstPendingLSN_le (h : Inv crc32 s) (pending : (s.tasks ptr).pending = some lsn) :
    s.sw.firstPendingLSN ≤ lsn := by
  have member : s.sw.minPending.Member ⟨ptr, lsn⟩ := (h.pending.member ⟨ptr, lsn⟩).mpr pending
  have least := (AggregateMin.compute_spec h.pending.wellFormed).1
  rw [State.firstPendingLSN]
  cases found : s.sw.minPending.compute.1 with
  | none =>
    rw [found] at least
    exact absurd member (least _)
  | some m =>
    rw [found] at least
    exact least.2 _ member

end SafeWrites

namespace FilePool

/-- The write tail is at the first entry that is reserved and not written. -/
theorem Inv.firstPendingLsn_le_iff (h : Inv crc32 start pool) (held : pool.writers thread = some w) :
    pool.firstPendingLsn ≤ w.off ↔
      ∃ thread' w', pool.writers thread' = some w' ∧ w'.phase ≠ .written ∧ w'.off ≤ w.off := by
  constructor
  · intro le
    obtain ⟨r, mem, handle, _⟩ := h.writers.writer thread w held
    have bounds := h.ring.reserved.bounds mem
    have off : r.off = w.off := congrArg Handle.lsn handle
    have tail : pool.session.ring.wt ≤ w.off := le
    obtain frontier | ⟨g, ⟨r', mem', rfl, unwritten⟩, first⟩ := h.ring.writers.isMark.tight
    · omega
    · have applied : r'.applied = false := Bool.eq_false_iff.mpr fun done =>
        Bool.noConfusion (unwritten.symm.trans (h.writers.order r' mem' done))
      obtain ⟨w', held', off'⟩ := h.writers.owner r' mem' applied
      obtain ⟨r0, mem0, handle0, _, _, written⟩ := h.writers.writer _ w' held'
      refine ⟨_, w', held', fun done => ?_, ?_⟩
      · have place : r0.off = w'.off := congrArg Handle.lsn handle0
        have same := h.ring.reserved.inj mem0 mem' (x := r'.off)
          (by have := h.ring.reserved.bounds mem0; omega)
          (by have := h.ring.reserved.bounds mem'; omega)
        exact Bool.noConfusion ((same ▸ unwritten).symm.trans (written.mpr done))
      · rw [off', Reservation.off, first]
        exact le
  · rintro ⟨thread', w', held', unwritten, le⟩
    obtain ⟨r, mem, handle, _, _, written⟩ := h.writers.writer thread' w' held'
    have writing : pool.session.Writing ⟨thread', w'.off⟩ :=
      ⟨r, mem, handle, Bool.eq_false_iff.mpr fun done => unwritten (written.mp done)⟩
    exact le_trans (h.ring.writers.isMark.low w'.off ⟨_, writing, rfl⟩) le

end FilePool

/-- The first pending number is no greater than that of a pending entry; in the file pool, just
if that entry or one in front of it is not written yet. -/
theorem first_pending_covers
    {crcSafe : List UInt8 → UInt32 → UInt32} {s : SafeWrites.Session}
    (safe : SafeWrites.Reached crcSafe s)
    {crcPool : List UInt8 → UInt32} {start : Nat} {pool : FilePool.Pool}
    (filePool : FilePool.Reached crcPool start pool) :
    (∀ ptr lsn, (s.tasks ptr).pending = some lsn → s.sw.firstPendingLSN ≤ lsn) ∧
      ∀ thread w, pool.writers thread = some w → (pool.firstPendingLsn ≤ w.off ↔
        ∃ thread' w', pool.writers thread' = some w' ∧ w'.phase ≠ .written ∧ w'.off ≤ w.off) :=
  ⟨fun _ _ pending => safe.inv.firstPendingLSN_le pending,
    fun _ _ held => filePool.inv.firstPendingLsn_le_iff held⟩

/-- In each log a thread has written its entry, and another one has only reserved it. In the
file pool that is the first of them. -/
theorem first_pending_covers_one : ∃ (s : SafeWrites.Session) (pool : FilePool.Pool),
    (s.tasks 1 = .written 1 8 ∧ s.sw.firstPendingLSN ≤ 8) ∧
    (s.tasks 2 = .reserved 2 40 ∧ s.sw.firstPendingLSN ≤ 40) ∧
    pool.writers 1 = some ⟨1, 8, .placing⟩ ∧ pool.writers 2 = some ⟨17, 8, .written⟩ ∧
      pool.firstPendingLsn ≤ 17 := by
  obtain ⟨s, run, first, second⟩ : ∃ s, [.reserve 1 1, .write 1 ⟨0, -1, 1, RawLogEntry.xcommit, []⟩,
      .reserve 2 2].foldlM (SafeWrites.Session.runAllowed fun _ crc => crc)
        (SafeWrites.created false false) = .ok s ∧ s.tasks 1 = .written 1 8 ∧
          s.tasks 2 = .reserved 2 40 := ⟨_, rfl, rfl, rfl⟩
  obtain ⟨pool, run', held, held'⟩ : ∃ pool, [.reserveSpace 1 8, .reserveSpace 2 8, .place 2,
      .flushed 2, .writeEntry 2 (LittleEndian.encode 8 17)].foldlM
        (FilePool.Pool.runAllowed fun _ => 0) FilePool.created = .ok pool ∧
      pool.writers 1 = some ⟨1, 8, .placing⟩ ∧ pool.writers 2 = some ⟨17, 8, .written⟩ := by
    decide +kernel
  obtain ⟨safe, filePool⟩ := first_pending_covers
    ((SafeWrites.Reached.created false false).steps run)
    ((FilePool.Reached.opened (FilePool.created_opened fun _ => 0)).steps run')
  exact ⟨s, pool, ⟨first, safe 1 8 (by rw [first]; rfl)⟩, ⟨second, safe 2 40 (by rw [second]; rfl)⟩,
    held, held', (filePool 2 _ held').mpr ⟨1, _, held, nofun, by decide⟩⟩

/-- An entry that is written and not done is in front of the first pending number of the file
pool: a truncation may pass it before it is applied to its page. -/
theorem first_pending_passes_written : ∃ pool, FilePool.Reached (fun _ => 0) 1 pool ∧
    pool.writers 1 = some ⟨1, 8, .written⟩ ∧ 1 < pool.firstPendingLsn := by
  generalize (fun _ => 0 : List UInt8 → UInt32) = crc32
  obtain ⟨pool, run, held, pending⟩ : ∃ pool, [.reserveSpace 1 8, .place 1, .flushed 1,
      .writeEntry 1 (LittleEndian.encode 8 1)].foldlM (FilePool.Pool.runAllowed crc32)
        FilePool.created = .ok pool ∧ pool.writers 1 = some ⟨1, 8, .written⟩ ∧
          pool.firstPendingLsn = 17 := ⟨_, rfl, rfl, rfl⟩
  have reached := (FilePool.Reached.opened (FilePool.created_opened crc32)).steps run
  exact ⟨pool, reached, held, by rw [pending]; decide⟩

end Stasis
