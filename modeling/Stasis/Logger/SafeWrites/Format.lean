import Stasis.Logger.SafeWrites.Threads
import Stasis.Library.Frames
import Stasis.Library.Tiling
import Mathlib.Data.List.Induction

/-!
The file of the safe writes log.

An entry is read back from its frame. A frame that is cut off gives no entry, and if it is
cut inside the size word, what is read depends on the stale word. The scan over a sequence of
frames stops behind the last checksum, which has to match what was read since the one
before it.
-/
namespace Stasis.SafeWrites
open LittleEndian RawLogEntry Frames List

/-- Entries whose numbers and sizes fit in words. -/
structure Storable (e : RawLogEntry) : Prop where
  valid : e.Valid
  nonneg : 0 ≤ e.LSN
  bound : nextEntry e < 2 ^ 63

/-- The bytes from the number of an entry to that of the next one. -/
def extent (e : RawLogEntry) : Int := e.sizeofLogEntry + lsnSize

theorem nextEntry_eq (e : RawLogEntry) : nextEntry e = e.LSN + extent e := rfl

theorem extent_eq (valid : e.Valid) : extent e = lsnSize + rawSize + e.body.length := by
  rw [extent, valid.size]
  omega

theorem extent_pos (valid : e.Valid) : 0 < extent e := by
  rw [extent_eq valid, lsnSize, rawSize]
  omega

theorem sizedBytes_eq (valid : e.Valid) : sizedBytes e = e.bytes := by
  have length := length_bytes e
  have size := valid.size
  rw [sizedBytes]
  exact take_of_length_le (by omega)

theorem length_frame (valid : e.Valid) : ((frame e).length : Int) = extent e := by
  rw [frame, length_append, length_encodeInt, sizedBytes_eq valid, length_bytes,
    extent_eq valid]
  omega

theorem decodeInt_size (st : Storable e) :
    decodeInt (encodeInt lsnSize e.sizeofLogEntry) = e.sizeofLogEntry := by
  have size := st.valid.size
  have nonneg := st.nonneg
  have bound := st.bound
  rw [nextEntry] at bound
  have wide : ((256 ^ lsnSize : Nat) : Int) = 2 ^ 64 := rfl
  exact decodeInt_encodeInt (by omega) (by omega)

theorem readLogEntry_frame (st : Storable e) (rest : List UInt8) :
    readLogEntry stale (frame e ++ rest) = .ok (some (e, rest)) := by
  have size := st.valid.size
  have length := length_bytes e
  have raw : rawSize = 24 := rfl
  have word : (frame e ++ rest).take lsnSize = encodeInt lsnSize e.sizeofLogEntry := by
    rw [frame, append_assoc]
    exact take_left' (length_encodeInt _ _)
  have behind : (frame e ++ rest).drop lsnSize = e.bytes ++ rest := by
    rw [frame, append_assoc, sizedBytes_eq st.valid]
    exact drop_left' (length_encodeInt _ _)
  have count : e.bytes.length = e.sizeofLogEntry.toNat := by omega
  rw [readLogEntry, word, if_pos (length_encodeInt _ _), decodeInt_size st, if_neg (by omega),
    if_neg (by omega), behind, take_left' count, if_pos count, drop_left' count,
    ofBytes_bytes st.valid]

theorem readLogEntry_nil : readLogEntry stale [] = .ok none := rfl

theorem readLogEntry_torn (st : Storable e) (short : k < (frame e).length)
    (word : k = 0 ∨ lsnSize ≤ k) : readLogEntry stale ((frame e).take k) = .ok none := by
  cases word with
  | inl zero =>
    subst zero
    exact readLogEntry_nil
  | inr whole =>
    have size := st.valid.size
    have length := length_bytes e
    have raw : rawSize = 24 := rfl
    have frameLength : (frame e).length = lsnSize + e.bytes.length := by
      rw [frame, length_append, length_encodeInt, sizedBytes_eq st.valid]
    have word : ((frame e).take k).take lsnSize = encodeInt lsnSize e.sizeofLogEntry := by
      rw [take_take, Nat.min_eq_left whole]
      exact take_left' (length_encodeInt _ _)
    have behind : (((frame e).take k).drop lsnSize).length ≠ e.sizeofLogEntry.toNat := by
      rw [length_drop, length_take]
      omega
    rw [readLogEntry, word, if_pos (length_encodeInt _ _), decodeInt_size st, if_neg (by omega),
      if_neg (by omega), take_of_length_le (by rw [length_drop, length_take]; omega),
      if_neg behind]

theorem readLogEntry_short (short : rest.length < lsnSize) (h : readLogEntry stale rest = .ok r) :
    r = none := by
  have length : (rest.take lsnSize).length ≠ lsnSize := by
    rw [length_take]
    omega
  rw [readLogEntry, if_neg length] at h
  split at h
  · exact (Except.ok.inj h).symm
  · simp only at h
    split at h
    · cases h
    · exact (Except.ok.inj h).symm

section Scan
variable (crc32 : List UInt8 → UInt32 → UInt32)

/-- The running checksum behind the entries. -/
def crcAfter : UInt32 → List RawLogEntry → UInt32
  | crc, [] => crc
  | crc, e :: l =>
    if e.type = internalLog then crcAfter 0 l else crcAfter (logCrcUpdate crc32 e crc) l

/-- Every checksum matches. -/
def CrcsOk : UInt32 → List RawLogEntry → Prop
  | _, [] => True
  | crc, e :: l =>
    if e.type = internalLog then CrcMatches crc e ∧ CrcsOk 0 l
    else CrcsOk (logCrcUpdate crc32 e crc) l

variable {crc32}

theorem crcAfter_append (crc : UInt32) (l l' : List RawLogEntry) :
    crcAfter crc32 crc (l ++ l') = crcAfter crc32 (crcAfter crc32 crc l) l' := by
  induction l generalizing crc with
  | nil => rfl
  | cons e l ih =>
    rw [cons_append, crcAfter, crcAfter]
    split
    · exact ih 0
    · exact ih _

theorem crcsOk_append (crc : UInt32) (l l' : List RawLogEntry) :
    CrcsOk crc32 crc (l ++ l') ↔
      CrcsOk crc32 crc l ∧ CrcsOk crc32 (crcAfter crc32 crc l) l' := by
  induction l generalizing crc with
  | nil => exact (iff_of_eq (true_and _)).symm
  | cons e l ih =>
    rw [cons_append, CrcsOk, CrcsOk, crcAfter]
    split
    · rw [ih, and_assoc]
    · exact ih _

/-- The number behind the last checksum. -/
def lastCrc : Int → List RawLogEntry → Int
  | ret, [] => ret
  | ret, e :: l => if e.type = internalLog then lastCrc (nextEntry e) l else lastCrc ret l

variable {tail : List UInt8}

theorem logCrcNextLsn_frames (storable : ∀ e ∈ l, Storable e) (crcs : CrcsOk crc32 crc l)
    (ret : Int) (rounds : l.length < fuel) :
    logCrcNextLsn crc32 stale fuel ret crc (l.flatMap frame ++ tail) =
      logCrcNextLsn crc32 stale (fuel - l.length) (lastCrc ret l) (crcAfter crc32 crc l) tail := by
  induction l generalizing fuel ret crc with
  | nil => rfl
  | cons e l ih =>
    obtain ⟨fuel, rfl⟩ : ∃ k, fuel = k + 1 := ⟨fuel - 1, by omega⟩
    have rounds : l.length < fuel := Nat.lt_of_succ_lt_succ rounds
    have later := fun x mem => storable x (mem_cons_of_mem e mem)
    rw [flatMap_cons, append_assoc, logCrcNextLsn,
      readLogEntry_frame (storable e mem_cons_self), length_cons,
      Nat.add_sub_add_right, lastCrc, crcAfter]
    rw [CrcsOk] at crcs
    simp only
    split at crcs
    · next internal =>
      rw [if_pos internal, if_pos internal, if_pos internal, if_pos crcs.1]
      exact ih later crcs.2 _ rounds
    · next other =>
      rw [if_neg other, if_neg other, if_neg other]
      exact ih later crcs _ rounds

theorem logCrcNextLsn_tail (rounds : 0 < fuel)
    (none : ∀ r, readLogEntry stale tail = .ok r → r = none) :
    logCrcNextLsn crc32 stale fuel ret crc tail =
      (readLogEntry stale tail).map fun _ => ret := by
  obtain ⟨fuel, rfl⟩ : ∃ k, fuel = k + 1 := ⟨fuel - 1, by omega⟩
  rw [logCrcNextLsn]
  cases read : readLogEntry stale tail with
  | error e => rfl
  | ok r =>
    rw [none r read]
    rfl

end Scan

open Tiling

/-- The entries of a log with the numbers from `a` up to `b`. -/
abbrev Run (a : Int) (l : List RawLogEntry) (b : Int) : Prop := Tiles LSN extent a l b

section Runs
variable {l : List RawLogEntry}

theorem Run.length (run : Run a l b) (storable : ∀ e ∈ l, Storable e) :
    ((l.flatMap frame).length : Int) = b - a := by
  induction l generalizing a with
  | nil =>
    have same : a = b := run
    rw [same, Int.sub_self]
    rfl
  | cons e l ih =>
    have rest := ih run.2.2 fun x mem => storable x (mem_cons_of_mem e mem)
    have first := length_frame (storable e mem_cons_self).valid
    rw [flatMap_cons, length_append]
    omega

theorem length_le_flatMap (storable : ∀ e ∈ l, Storable e) :
    l.length ≤ (l.flatMap frame).length := by
  induction l with
  | nil => exact Nat.le_refl 0
  | cons e l ih =>
    have rest := ih fun x mem => storable x (mem_cons_of_mem e mem)
    have valid := (storable e mem_cons_self).valid
    have first := length_frame valid
    have pos := extent_pos valid
    rw [flatMap_cons, length_append, length_cons]
    omega

/-- Entries that end with a checksum, if there are any. -/
def Closed (l : List RawLogEntry) : Prop := l = [] ∨ ∃ front c, l = front ++ [c] ∧ c.type = internalLog

theorem Closed.crcAfter (closed : Closed l) : crcAfter crc32 0 l = 0 := by
  cases closed with
  | inl nil => rw [nil]; rfl
  | inr last =>
    obtain ⟨front, c, rfl, internal⟩ := last
    rw [crcAfter_append, SafeWrites.crcAfter, if_pos internal]
    rfl

theorem lastCrc_append (ret : Int) (l l' : List RawLogEntry) :
    lastCrc ret (l ++ l') = lastCrc (lastCrc ret l) l' := by
  induction l generalizing ret with
  | nil => rfl
  | cons e l ih =>
    rw [cons_append, lastCrc, lastCrc]
    split
    · exact ih _
    · exact ih _

theorem lastCrc_of_plain (plain : ∀ e ∈ l, e.type ≠ internalLog) : lastCrc ret l = ret := by
  induction l with
  | nil => rfl
  | cons e l ih =>
    rw [lastCrc, if_neg (plain e mem_cons_self)]
    exact ih fun x mem => plain x (mem_cons_of_mem e mem)

theorem closed_split (l : List RawLogEntry) :
    ∃ front back, l = front ++ back ∧ Closed front ∧ ∀ e ∈ back, e.type ≠ internalLog := by
  induction l using List.reverseRecOn with
  | nil => exact ⟨[], [], rfl, .inl rfl, fun e mem => absurd mem not_mem_nil⟩
  | append_singleton l c ih =>
    by_cases internal : c.type = internalLog
    · exact ⟨l ++ [c], [], (append_nil _).symm, .inr ⟨l, c, rfl, internal⟩,
        fun e mem => absurd mem not_mem_nil⟩
    · obtain ⟨front, back, rfl, closed, plain⟩ := ih
      refine ⟨front, back ++ [c], append_assoc .., closed, fun e mem => ?_⟩
      cases mem_append.mp mem with
      | inl old => exact plain e old
      | inr new => exact mem_singleton.mp new ▸ internal

theorem Closed.lastCrc (closed : Closed l) (run : Run a l b) : lastCrc a l = b := by
  cases closed with
  | inl nil =>
    subst nil
    exact run
  | inr last =>
    obtain ⟨front, c, rfl, internal⟩ := last
    obtain ⟨m, _, tail⟩ := Tiles.append_iff.mp run
    have first : c.LSN = m := tail.1
    have stop : m + extent c = b := tail.2.2
    rw [lastCrc_append, SafeWrites.lastCrc, if_pos internal, SafeWrites.lastCrc, nextEntry_eq]
    omega

theorem Run.lastCrc_split (run : Run a l b) :
    ∃ front back, l = front ++ back ∧ Closed front ∧ (∀ e ∈ back, e.type ≠ internalLog) ∧
      Run a front (SafeWrites.lastCrc a l) ∧ Run (SafeWrites.lastCrc a l) back b := by
  obtain ⟨front, back, rfl, closed, plain⟩ := closed_split l
  obtain ⟨m, hf, hb⟩ := Tiles.append_iff.mp run
  have stop : SafeWrites.lastCrc a (front ++ back) = m := by
    rw [lastCrc_append, lastCrc_of_plain plain]
    exact closed.lastCrc hf
  exact ⟨front, back, rfl, closed, plain, stop ▸ hf, stop ▸ hb⟩

end Runs

end Stasis.SafeWrites
