import Stasis.Logger.SafeWrites.Invariant
import Mathlib.Order.Bounds.Basic

/-!
What a crash leaves of the safe writes log.

A crash leaves a prefix of what was written. Opening it recovers the log up to the last
checksum that the prefix holds in full, unless the prefix ends inside a size word. There, the
count for a second read is computed from a word that was read in part: if it is negative, the
program aborts.
-/
namespace Stasis.SafeWrites
open LittleEndian RawLogEntry Tiling Frames Fallible List

/-- The first `n` bytes do not end inside the size word of an entry. -/
def WordsWhole (s : Session) (n : Nat) : Prop :=
  ∀ e ∈ s.logged, ¬(e.LSN < s.sw.globalOffset + n ∧ s.sw.globalOffset + n < e.LSN + lsnSize)

/-- The ends of the checksums that lie in the first `n` bytes, and the start of the log. -/
def crcEnds (s : Session) (n : Nat) : Set Int :=
  { x | x = s.sw.globalOffset + lsnSize ∨
    ∃ c ∈ s.logged, c.type = internalLog ∧ nextEntry c = x ∧ x ≤ s.sw.globalOffset + n }

theorem FileInv.mem_cut (h : FileInv crc32 sw logged) {n : Nat} (mem : e ∈ logged)
    (inside : nextEntry e ≤ sw.globalOffset + n) : e ∈ cut frame (n - lsnSize) logged := by
  cases cut_torn frame (n - lsnSize) logged with
  | inl all => rw [all.1]; exact mem
  | inr part =>
    obtain ⟨r, later, k, split, short, count, _⟩ := part
    have run := h.run
    rw [split] at run
    obtain ⟨m, hc, hr⟩ := Tiles.append_iff.mp run
    have frames := Run.length hc fun x held => h.storable x (split ▸ mem_append_left _ held)
    have size := length_frame (h.storable r (split ▸ mem_append_right _ mem_cons_self)).valid
    have mem' := mem
    rw [split] at mem'
    refine (mem_append.mp mem').resolve_right fun behind => ?_
    have first : r.LSN = m := hr.1
    have low : r.LSN + extent r ≤ nextEntry e := by
      cases mem_cons.mp behind with
      | inl same => rw [same]; exact le_rfl
      | inr after =>
        have := hr.2.2.bounds after
        rw [nextEntry_eq]
        omega
    have word : lsnSize = 8 := rfl
    omega

theorem length_cut_le (n : Nat) (l : List RawLogEntry) :
      ((cut frame n l).flatMap frame).length ≤ n := by
  have all := congrArg List.length (take_flatMap frame n l)
  rw [length_take, length_append] at all
  omega

section
variable {s : Session} (h : FileInv crc32 s.sw s.logged) (header : lsnSize ≤ n)
include h header

theorem FileInv.recoveredLSN_greatest :
    IsGreatest (crcEnds s n) (recoveredLSN s.sw s.logged n) := by
  obtain ⟨back, later, whole, split, closed, plain, hf, _⟩ := h.recovered_split n
  have frames := Run.length hf fun e mem => h.storable e (mem_filter.mp mem).1
  constructor
  · cases closed with
    | inl nil =>
      rw [nil] at hf
      exact .inl (Eq.symm hf)
    | inr last =>
      obtain ⟨front, c, eq, internal⟩ := last
      have held : c ∈ recovered s.sw s.logged n := eq ▸ mem_append_right front mem_cons_self
      refine .inr ⟨c, (mem_filter.mp held).1, internal, ?_, ?_⟩
      · have run := hf
        rw [eq] at run
        obtain ⟨m, _, tail⟩ := Tiles.append_iff.mp run
        have first : c.LSN = m := tail.1
        rw [nextEntry_eq, first]
        exact tail.2.2
      · have inside := length_cut_le (n - lsnSize) s.logged
        rw [whole, flatMap_append, length_append] at inside
        omega
  · intro x ends
    cases ends with
    | inl start => exact start ▸ hf.le
    | inr crc =>
      obtain ⟨c, mem, internal, rfl, inside⟩ := crc
      have held := h.mem_cut mem inside
      rw [whole] at held
      cases mem_append.mp held with
      | inl kept => exact (hf.bounds kept).2.2
      | inr lost => exact absurd internal (plain c lost)

theorem FileInv.tornEnd_readable (words : WordsWhole s n) (stale : Int) :
    readLogEntry stale (tornEnd s.logged n) = .ok none := by
  cases cut_torn frame (n - lsnSize) s.logged with
  | inl all => rw [tornEnd, all.2, readLogEntry_nil]
  | inr part =>
    obtain ⟨r, later, k, split, short, count, eq⟩ := part
    have mem : r ∈ s.logged := split ▸ mem_append_right _ mem_cons_self
    rw [tornEnd, eq]
    refine readLogEntry_torn (h.storable r mem) short ?_
    have run := h.run
    rw [split] at run
    obtain ⟨m, hc, hr⟩ := Tiles.append_iff.mp run
    have frames := Run.length hc fun x held => h.storable x (split ▸ mem_append_left _ held)
    have first : r.LSN = m := hr.1
    have outside := words r mem
    omega

end

/-- Every entry in front of the last checksum that is left is read back, and the log goes on
from there. -/
theorem reopen_forced_groups {crc32 : List UInt8 → UInt32 → UInt32} {s : Session}
    (h : Reached crc32 s) {n : Nat} (header : lsnSize ≤ n) (words : WordsWhole s n) (stale : Int) :
    ∃ after, (Op.reopen stale n).run crc32 s = .ok after ∧ Reached crc32 after ∧
      IsGreatest (crcEnds s n) after.sw.nextAvailableLSN ∧
      ∀ e ∈ s.logged, e.LSN < after.sw.nextAvailableLSN → ∀ stale,
        ∃ sw, after.sw.readLSNEntry stale e.LSN = .ok (sw, some e) := by
  have inv := h.inv
  have opened := safeWritesOpen_eq inv.file s.sw.softcommit s.sw.osync stale header
  rw [inv.file.tornEnd_readable header words stale] at opened
  have run : (Op.reopen stale n).run crc32 s = .ok ⟨openedAt s.sw.softcommit s.sw.osync
      s.sw.globalOffset (recoveredLSN s.sw s.logged n) (encodeInt lsnSize s.sw.globalOffset ++
        (recovered s.sw s.logged n).flatMap frame), fun _ => .idle, recovered s.sw s.logged n⟩ := by
    rw [Op.run, Session.reopen, opened]
    rfl
  have reached := h.step (.reopen stale n) header run
  refine ⟨_, run, reached, inv.file.recoveredLSN_greatest header, fun e mem low stale => ?_⟩
  have held : e ∈ recovered s.sw s.logged n :=
    mem_filter.mpr ⟨mem, decide_eq_true low⟩
  exact ⟨_, readLSNEntry_entry reached.inv.file reached.inv.read held⟩

/-- One commit record, which is forced. -/
theorem reopen_forced_commit : ∃ s after : Session,
    (Op.reopen 0 80).run (fun l crc => crc + l.length.toUInt32) s = .ok after ∧
      s.logged.map LSN = [8, 40] ∧ IsGreatest (crcEnds s 80) after.sw.nextAvailableLSN := by
  obtain ⟨s, run, offset, lsns⟩ : ∃ s, [.reserve 1 1, .write 1 ⟨0, -1, 1, xcommit, []⟩, .done 1,
      .forceReserve 2 1 .commit, .forceWrite 2, .forceDone 2, .forceFlush 2, .forceSync 2,
      .forcePublish 2].foldlM (Session.runAllowed fun l crc => crc + l.length.toUInt32)
        (created false false) = .ok s ∧ s.sw.globalOffset = 0 ∧ s.logged.map LSN = [8, 40] := by
    decide +kernel
  have words : WordsWhole s 80 := by
    intro e mem
    have held : e.LSN ∈ s.logged.map LSN := mem_map_of_mem mem
    rw [lsns, mem_cons, mem_singleton] at held
    have word : lsnSize = 8 := rfl
    omega
  obtain ⟨after, reopened, _, greatest, _⟩ :=
    reopen_forced_groups ((Reached.created false false).steps run) (by decide) words 0
  exact ⟨s, after, reopened, lsns, greatest⟩

/-- An update with `n` bytes of arguments. -/
def sampleUpdate (n : Nat) : RawLogEntry :=
  ⟨0, -1, 1, updateLog, List.replicate 16 0 ++ encode 8 n ++ List.replicate n 0⟩

set_option maxRecDepth 20000 in
/-- An entry of 256 bytes, of which the prefix holds the first byte of the size word: that
byte is zero, and a count of minus one is passed to the second read. -/
theorem reopen_torn_word : ∃ s, Reached (fun _ crc => crc) s ∧
    lsnSize ≤ 9 ∧ 9 ≤ (s.sw.file ++ s.sw.buffer).length ∧
    (Op.reopen 0 9).run (fun _ crc => crc) s = .error .fails := by
  generalize (fun _ crc => crc : List UInt8 → UInt32 → UInt32) = crc32
  obtain ⟨s, run, length, bytes⟩ : ∃ s, [.reserve 1 1, .write 1 (sampleUpdate 208)].foldlM
      (Session.runAllowed crc32) (created false false) = .ok s ∧
        (s.sw.file ++ s.sw.buffer).length = 272 ∧
          (s.sw.file ++ s.sw.buffer).take 9 = List.replicate 9 0 := ⟨_, rfl, rfl, rfl⟩
  have read : readLogEntry 0 [0] = .error .fails := by decide
  have split : List.replicate 9 (0 : UInt8) = encodeInt lsnSize 0 ++ [0] := by decide
  refine ⟨s, (Reached.created false false).steps run, by decide, by omega, ?_⟩
  rw [Op.run, Session.reopen, bytes, split, safeWritesOpen_header (by decide),
    logCrcNextLsn_tail (by decide) (fun r ok => by rw [read] at ok; cases ok), read]
  rfl

end Stasis.SafeWrites
