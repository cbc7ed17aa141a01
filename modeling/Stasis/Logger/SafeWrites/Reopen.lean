import Stasis.Logger.SafeWrites.Contents

/-!
Opening the safe writes log again.

The scan reads the entries that a prefix of the file holds, and then what is left of the next
one. It stops behind the last checksum, and the rest of the file is cut off.
-/
namespace Stasis.SafeWrites
open LittleEndian RawLogEntry Tiling Frames List

section Reopen
variable {sw : State} {logged : List RawLogEntry}

/-- The number behind the last checksum in the first `n` bytes of the log. -/
def recoveredLSN (sw : State) (logged : List RawLogEntry) (n : Nat) : Int :=
  lastCrc (lsnSize + sw.globalOffset) (cut frame (n - lsnSize) logged)

def recovered (sw : State) (logged : List RawLogEntry) (n : Nat) : List RawLogEntry :=
  logged.filter fun e => e.LSN < recoveredLSN sw logged n

/-- The part of an entry at the end of the first `n` bytes. -/
abbrev tornEnd (logged : List RawLogEntry) (n : Nat) : List UInt8 := torn frame (n - lsnSize) logged

theorem readLogEntry_tornEnd (h : FileInv crc32 sw logged)
    (read : readLogEntry stale (tornEnd logged n) = .ok r) : r = none := by
  cases cut_torn frame (n - lsnSize) logged with
  | inl all =>
    rw [tornEnd, all.2, readLogEntry_nil] at read
    exact (Except.ok.inj read).symm
  | inr part =>
    obtain ⟨e, later, k, split, short, _, eq⟩ := part
    have storable := h.storable e (split ▸ mem_append_right _ mem_cons_self)
    rw [tornEnd, eq] at read
    by_cases word : k = 0 ∨ lsnSize ≤ k
    · rw [readLogEntry_torn storable short word] at read
      exact (Except.ok.inj read).symm
    · refine readLogEntry_short ?_ read
      rw [length_take]
      omega

theorem FileInv.recovered_split (h : FileInv crc32 sw logged) (n : Nat) :
    ∃ back later, cut frame (n - lsnSize) logged = recovered sw logged n ++ back ∧
      logged = recovered sw logged n ++ (back ++ later) ∧ Closed (recovered sw logged n) ∧
      (∀ e ∈ back, e.type ≠ internalLog) ∧
      Run (sw.globalOffset + lsnSize) (recovered sw logged n) (recoveredLSN sw logged n) ∧
      Run (recoveredLSN sw logged n) (back ++ later) sw.nextAvailableLSN := by
  obtain ⟨later, split⟩ : ∃ later, logged = cut frame (n - lsnSize) logged ++ later := by
    cases cut_torn frame (n - lsnSize) logged with
    | inl all => exact ⟨[], by rw [all.1, append_nil]⟩
    | inr part =>
      obtain ⟨e, later, _, split, _⟩ := part
      exact ⟨e :: later, split⟩
  have run := h.run
  rw [split] at run
  obtain ⟨m, hc, hl⟩ := Tiles.append_iff.mp run
  obtain ⟨front, back, eq, closed, plain, hf, hb⟩ := Run.lastCrc_split hc
  rw [Int.add_comm sw.globalOffset, ← recoveredLSN] at hf hb
  have all : logged = front ++ (back ++ later) := by
    rw [← append_assoc, ← eq]
    exact split
  have rest := Tiles.append_iff.mpr ⟨m, hb, hl⟩
  have kept : recovered sw logged n = front := by
    have filtered := hf.filter_lt rest
    rwa [← all] at filtered
  rw [kept, Int.add_comm sw.globalOffset]
  exact ⟨back, later, eq, all, closed, plain, hf, rest⟩

theorem FileInv.decode_header (h : FileInv crc32 sw logged) :
    decodeInt (encodeInt lsnSize sw.globalOffset) = sw.globalOffset := by
  have base := h.base
  have low := h.run.le
  have bound := h.bound
  have wide : ((256 ^ lsnSize : Nat) : Int) = 2 ^ 64 := rfl
  exact decodeInt_encodeInt (by omega) (by omega)

theorem safeWritesOpen_header (range : decodeInt (encodeInt lsnSize globalOffset) = globalOffset)
    (softcommit osync : Bool) (stale : Int) (rest : List UInt8) :
    safeWritesOpen crc32 softcommit osync stale (encodeInt lsnSize globalOffset ++ rest) =
      (logCrcNextLsn crc32 stale (lsnSize + rest.length) (lsnSize + globalOffset) 0 rest).map
        fun next => openedAt softcommit osync globalOffset next
          ((encodeInt lsnSize globalOffset ++ rest).take (next - globalOffset).toNat) := by
  have length : (encodeInt lsnSize globalOffset ++ rest).length = lsnSize + rest.length := by
    rw [length_append, length_encodeInt]
  have nonempty : encodeInt lsnSize globalOffset ++ rest ≠ [] :=
    ne_nil_of_length_pos (by rw [length, lsnSize]; omega)
  rw [safeWritesOpen]
  simp only [if_neg nonempty, length]
  rw [if_neg (by omega), take_left' (length_encodeInt _ _),
    drop_left' (length_encodeInt _ _), range]
  cases logCrcNextLsn crc32 stale (lsnSize + rest.length) (lsnSize + globalOffset) 0 rest with
  | error e => rfl
  | ok next => rfl

theorem safeWritesOpen_eq (h : FileInv crc32 sw logged) (softcommit osync : Bool) (stale : Int)
    (header : lsnSize ≤ n) :
    safeWritesOpen crc32 softcommit osync stale ((sw.file ++ sw.buffer).take n) =
      (readLogEntry stale (tornEnd logged n)).map fun _ =>
        openedAt softcommit osync sw.globalOffset (recoveredLSN sw logged n)
          (encodeInt lsnSize sw.globalOffset ++ (recovered sw logged n).flatMap frame) := by
  obtain ⟨back, later, whole, split, _, _, hf, _⟩ := h.recovered_split n
  have all : logged = cut frame (n - lsnSize) logged ++ later := by
    rw [whole, append_assoc]
    exact split
  have storable : ∀ e ∈ cut frame (n - lsnSize) logged, Storable e := fun e mem =>
    h.storable e (all ▸ mem_append_left later mem)
  have crcs : CrcsOk crc32 0 (cut frame (n - lsnSize) logged) := by
    have crcs := h.crcs
    rw [all, crcsOk_append] at crcs
    exact crcs.1
  have bytes : (sw.file ++ sw.buffer).take n = encodeInt lsnSize sw.globalOffset ++
      ((cut frame (n - lsnSize) logged).flatMap frame ++ tornEnd logged n) := by
    rw [h.bytes, take_append, length_encodeInt,
      take_of_length_le (by rw [length_encodeInt]; exact header), take_flatMap]
  have rounds : (cut frame (n - lsnSize) logged).length < lsnSize +
      ((cut frame (n - lsnSize) logged).flatMap frame ++ tornEnd logged n).length := by
    have few := length_le_flatMap storable
    have total : ((cut frame (n - lsnSize) logged).flatMap frame ++ tornEnd logged n).length =
      _ + _ := length_append
    have word : 0 < lsnSize := by decide
    omega
  have file : (encodeInt lsnSize sw.globalOffset ++
      ((cut frame (n - lsnSize) logged).flatMap frame ++ tornEnd logged n)).take
        (recoveredLSN sw logged n - sw.globalOffset).toNat =
      encodeInt lsnSize sw.globalOffset ++ (recovered sw logged n).flatMap frame := by
    have frames := Run.length hf fun e mem => storable e (whole ▸ mem_append_left back mem)
    rw [whole, flatMap_append, append_assoc, ← append_assoc]
    refine take_left' ?_
    rw [length_append, length_encodeInt]
    omega
  rw [bytes, safeWritesOpen_header h.decode_header, logCrcNextLsn_frames storable crcs _ rounds,
    logCrcNextLsn_tail (by omega) fun r => readLogEntry_tornEnd h, ← recoveredLSN]
  cases readLogEntry stale (tornEnd logged n) with
  | error e => rfl
  | ok r => exact congrArg Except.ok (congrArg _ file)

theorem FileInv.reopen (h : FileInv crc32 sw logged) (softcommit osync : Bool) (n : Nat) :
    FileInv crc32 (openedAt softcommit osync sw.globalOffset (recoveredLSN sw logged n)
        (encodeInt lsnSize sw.globalOffset ++ (recovered sw logged n).flatMap frame))
      (recovered sw logged n) := by
  obtain ⟨back, later, _, split, closed, _, hf, hb⟩ := h.recovered_split n
  have crcs := h.crcs
  rw [split, crcsOk_append] at crcs
  exact ⟨append_nil _, hf, fun e mem => h.storable e (mem_filter.mp mem).1, h.base,
    lt_of_le_of_lt hb.le h.bound, crcs.1, closed.crcAfter.symm⟩

end Reopen
end Stasis.SafeWrites
