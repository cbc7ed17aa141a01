import Stasis.Logger.SafeWrites.Format

/-!
What the safe writes log holds.

The bytes that were written are a header and the frames of the entries, whose numbers follow
one another. Numbers up to which the log was flushed lie between two entries, and those up
to which it was forced lie behind a checksum. Reading finds every entry of the log.
-/
namespace Stasis.SafeWrites
open LittleEndian RawLogEntry Tiling List

structure FileInv (crc32 : List UInt8 → UInt32 → UInt32) (sw : State) (logged : List RawLogEntry) :
    Prop where
  bytes : sw.file ++ sw.buffer = encodeInt lsnSize sw.globalOffset ++ logged.flatMap frame
  run : Run (sw.globalOffset + lsnSize) logged sw.nextAvailableLSN
  storable : ∀ e ∈ logged, Storable e
  base : 0 ≤ sw.globalOffset
  bound : sw.nextAvailableLSN < 2 ^ 63
  crcs : CrcsOk crc32 0 logged
  crc : sw.crc = crcAfter crc32 0 logged

/-- No entry lies on both sides of `x`. -/
def Clean (logged : List RawLogEntry) (x : Int) : Prop :=
  ∀ e ∈ logged, x ≤ e.LSN ∨ nextEntry e ≤ x

/-- Every entry in front of `x` has a checksum in front of `x`. -/
def Covered (logged : List RawLogEntry) (x : Int) : Prop :=
  ∀ e ∈ logged, e.LSN < x →
    ∃ c ∈ logged, c.type = internalLog ∧ e.LSN ≤ c.LSN ∧ nextEntry c ≤ x

/-- What reading needs to know about the part of the log that is in the file. -/
structure ReadInv (sw : State) (logged : List RawLogEntry) : Prop where
  clean : Clean logged sw.flushedLSNInternal
  inFile : sw.flushedLSNInternal ≤ sw.globalOffset + sw.file.length
  le : sw.flushedLSNInternal ≤ sw.nextAvailableLSN

theorem Clean.append (h : Clean logged x) (le : x ≤ e.LSN) : Clean (logged ++ [e]) x := by
  intro f mem
  cases mem_append.mp mem with
  | inl old => exact h f old
  | inr new => exact .inl (mem_singleton.mp new ▸ le)

theorem Covered.append (h : Covered logged x) (le : x ≤ e.LSN) : Covered (logged ++ [e]) x := by
  intro f mem lt
  cases mem_append.mp mem with
  | inl old =>
    obtain ⟨c, held, facts⟩ := h f old lt
    exact ⟨c, mem_append_left _ held, facts⟩
  | inr new =>
    rw [mem_singleton.mp new] at lt
    omega

theorem clean_end (run : Run a logged b) : Clean logged b :=
  fun _ mem => .inr (run.bounds mem).2.2

theorem Closed.covered (closed : Closed logged) (run : Run a logged b) : Covered logged b := by
  intro e mem _
  cases closed with
  | inl nil =>
    rw [nil] at mem
    exact absurd mem not_mem_nil
  | inr last =>
    obtain ⟨front, c, rfl, internal⟩ := last
    have stop := (run.bounds (mem_append_right front mem_cons_self)).2.2
    refine ⟨c, mem_append_right front mem_cons_self, internal, ?_, stop⟩
    cases mem_append.mp mem with
    | inl old =>
      obtain ⟨m, hf, hc⟩ := Tiles.append_iff.mp run
      have first : c.LSN = m := hc.1
      have := hf.bounds old
      omega
    | inr same => exact Int.le_of_eq (congrArg LSN (mem_singleton.mp same))

theorem Covered.clean (h : Covered logged x) (run : Run a logged b) : Clean logged x := by
  intro e mem
  by_cases lt : e.LSN < x
  · obtain ⟨c, held, _, le, stop⟩ := h e mem lt
    refine .inr ?_
    by_cases later : nextEntry e ≤ c.LSN
    · have := (run.bounds held).2.1
      rw [nextEntry_eq] at *
      omega
    · have := (run.bounds held).2.1
      rw [nextEntry_eq] at later
      rw [run.inj mem held ⟨le, by omega⟩ ⟨le_rfl, by omega⟩]
      exact stop
  · exact .inl (not_lt.mp lt)

section Reading
variable {sw : State} {e : RawLogEntry}

theorem FileInv.length (h : FileInv crc32 sw logged) :
    sw.globalOffset + (sw.file.length + sw.buffer.length) = sw.nextAvailableLSN := by
  have frames := Run.length h.run h.storable
  have bytes := congrArg List.length h.bytes
  rw [length_append, length_append, length_encodeInt] at bytes
  omega

section
variable (h : FileInv crc32 sw logged) (mem : e ∈ logged)
include h mem

theorem FileInv.drop :
    ∃ rest, (sw.file ++ sw.buffer).drop (e.LSN - sw.globalOffset).toNat = frame e ++ rest := by
  obtain ⟨front, back, rfl, hf, _⟩ := h.run.split_at mem
  have frames := Run.length hf fun x mem => h.storable x (mem_append_left _ mem)
  refine ⟨back.flatMap frame, ?_⟩
  rw [h.bytes, flatMap_append, ← append_assoc, flatMap_cons]
  refine drop_left' ?_
  rw [length_append, length_encodeInt]
  omega

theorem FileInv.take_drop {n : Nat} (inside : nextEntry e ≤ sw.globalOffset + n) :
    ∃ rest, ((sw.file ++ sw.buffer).take n).drop (e.LSN - sw.globalOffset).toNat =
      frame e ++ rest := by
  obtain ⟨rest, eq⟩ := h.drop mem
  have low := (h.run.bounds mem).1
  have size := length_frame (h.storable e mem).valid
  have whole : (frame e).length ≤ n - (e.LSN - sw.globalOffset).toNat := by
    rw [nextEntry_eq] at inside
    omega
  refine ⟨rest.take (n - (e.LSN - sw.globalOffset).toNat - (frame e).length), ?_⟩
  rw [drop_take, eq, take_append, take_of_length_le whole]

end

/-- The entry is in the part of the file that is on disk. -/
def OnDisk (sw : State) (e : RawLogEntry) : Prop :=
  ∃ rest, (sw.file.take sw.synced).drop (e.LSN - sw.globalOffset).toNat = frame e ++ rest

theorem FileInv.onDisk (h : FileInv crc32 sw logged) (mem : e ∈ logged)
    (le : sw.synced ≤ sw.file.length) (synced : nextEntry e ≤ sw.globalOffset + sw.synced) :
    OnDisk sw e := by
  have found := h.take_drop mem synced
  rwa [take_append_of_le_length le] at found

@[simp] theorem fflush_bytes (sw : State) :
    sw.fflush.file ++ sw.fflush.buffer = sw.file ++ sw.buffer := by
  rw [State.fflush, State.spill]
  simp

@[simp] theorem fflush_file (sw : State) : sw.fflush.file = sw.file ++ sw.buffer := by
  rw [State.fflush, State.spill, take_length]

theorem FileInv.congr (h : FileInv crc32 sw logged) {after : State}
    (bytes : after.file ++ after.buffer = sw.file ++ sw.buffer)
    (offset : after.globalOffset = sw.globalOffset)
    (next : after.nextAvailableLSN = sw.nextAvailableLSN) (crc : after.crc = sw.crc) :
    FileInv crc32 after logged :=
  ⟨by rw [bytes, offset]; exact h.bytes, by rw [offset, next]; exact h.run, h.storable,
    by rw [offset]; exact h.base, by rw [next]; exact h.bound, h.crcs, crc.trans h.crc⟩

theorem FileInv.syncLogInternal (h : FileInv crc32 sw logged) :
    FileInv crc32 sw.syncLogInternal logged := by
  rw [State.syncLogInternal]
  split
  · exact h.congr (fflush_bytes sw) rfl rfl rfl
  · exact h

theorem ReadInv.syncLogInternal (r : ReadInv sw logged) (h : FileInv crc32 sw logged) :
    ReadInv sw.syncLogInternal logged := by
  rw [State.syncLogInternal]
  split
  · have length := h.length
    refine ⟨clean_end h.run, ?_, le_rfl⟩
    show sw.nextAvailableLSN ≤ sw.globalOffset + sw.fflush.file.length
    rw [fflush_file, length_append]
    omega
  · exact r

theorem syncLogInternal_internal (r : ReadInv sw logged) :
    sw.syncLogInternal.flushedLSNInternal = sw.nextAvailableLSN := by
  have le := r.le
  rw [State.syncLogInternal]
  split
  · rfl
  · omega

theorem syncLogInternal_idem (r : ReadInv sw logged) :
    sw.syncLogInternal.syncLogInternal = sw.syncLogInternal := by
  have internal := syncLogInternal_internal r
  have next : sw.syncLogInternal.nextAvailableLSN = sw.nextAvailableLSN := by
    rw [State.syncLogInternal]
    split <;> rfl
  rw [State.syncLogInternal, if_neg (by omega)]

/-- The state after a read of `LSN`. -/
def State.readSynced (sw : State) (LSN : Int) : State :=
  if sw.flushedLSNInternal ≤ LSN then sw.syncLogInternal else sw

theorem readSynced_globalOffset (sw : State) (LSN : Int) :
    (sw.readSynced LSN).globalOffset = sw.globalOffset := by
  rw [State.readSynced, State.syncLogInternal]
  split
  · split <;> rfl
  · rfl

theorem readSynced_file (empty : sw.buffer = []) (LSN : Int) :
    (sw.readSynced LSN).file = sw.file := by
  have flushed : sw.fflush.file = sw.file := by rw [fflush_file, empty, append_nil]
  rw [State.readSynced, State.syncLogInternal]
  split
  · split
    · exact flushed
    · rfl
  · rfl

theorem FileInv.readSynced (h : FileInv crc32 sw logged) (LSN : Int) :
    FileInv crc32 (sw.readSynced LSN) logged := by
  rw [State.readSynced]
  split
  · exact h.syncLogInternal
  · exact h

theorem ReadInv.readSynced (r : ReadInv sw logged) (h : FileInv crc32 sw logged) (LSN : Int) :
    ReadInv (sw.readSynced LSN) logged := by
  rw [State.readSynced]
  split
  · exact r.syncLogInternal h
  · exact r

section
variable (r : ReadInv sw logged) {LSN : Int} (inside : LSN < sw.nextAvailableLSN)
include r inside

theorem ReadInv.flushed : ¬(sw.readSynced LSN).flushedLSNInternal ≤ LSN := by
  rw [State.readSynced]
  split
  · rw [syncLogInternal_internal r]
    omega
  · next behind => exact behind

theorem readLSNEntry_inside :
    sw.readLSNEntry stale LSN =
      if sw.globalOffset > LSN then .ok (sw.readSynced LSN, none)
      else match readLogEntry stale
          ((sw.readSynced LSN).file.drop (LSN - sw.globalOffset).toNat) with
        | .error e => .error e
        | .ok none => .error .fails
        | .ok (some (e, _)) => .ok (sw.readSynced LSN, some e) := by
  rw [State.readLSNEntry, if_neg (by omega)]
  simp only
  rw [← State.readSynced, if_neg (r.flushed inside)]
  exact readSynced_globalOffset sw LSN ▸ rfl

end

theorem readLSNEntry_entry (h : FileInv crc32 sw logged) (r : ReadInv sw logged) (mem :
      e ∈ logged) :
    sw.readLSNEntry stale e.LSN = .ok (sw.readSynced e.LSN, some e) := by
  have bounds := h.run.bounds mem
  have inside : e.LSN < sw.nextAvailableLSN := by omega
  have read := r.readSynced h e.LSN
  obtain ⟨rest, eq⟩ := (h.readSynced e.LSN).take_drop mem (n := (sw.readSynced e.LSN).file.length) (by
    have := (read.clean e mem).resolve_left (r.flushed inside)
    have := read.inFile
    omega)
  rw [take_left, readSynced_globalOffset] at eq
  rw [readLSNEntry_inside r inside, if_neg (by omega), eq, readLogEntry_frame (h.storable e mem)]

end Reading
end Stasis.SafeWrites
