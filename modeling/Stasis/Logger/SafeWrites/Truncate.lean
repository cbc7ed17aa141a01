import Stasis.Logger.SafeWrites.Contents

/-!
Truncation of the safe writes log.

The entries from the truncation point on are copied, and an entry without a checksum is
added behind them. The copy is a log again: its first checksum was over entries that may be
gone, and is cleared, so that it matches anything.
-/
namespace Stasis.SafeWrites
open LittleEndian RawLogEntry Tiling List

/-- All of an entry that its place in the log depends on. -/
def shape (e : RawLogEntry) : Int × Nat × Int := (e.LSN, e.type, extent e)

section ClearFirst
variable {l l' : List RawLogEntry}

theorem clearFirst_shape (l : List RawLogEntry) : (clearFirst l).map shape = l.map shape := by
  induction l with
  | nil => rfl
  | cons e l ih =>
    rw [clearFirst]
    split
    · rfl
    · rw [map_cons, map_cons, ih]

theorem exists_shape (same : l'.map shape = l.map shape) (mem : e ∈ l') :
    ∃ f ∈ l, f.LSN = e.LSN ∧ f.type = e.type ∧ nextEntry f = nextEntry e := by
  have held : shape e ∈ l.map shape := same ▸ mem_map_of_mem mem
  obtain ⟨f, hf, eq⟩ := mem_map.mp held
  have lsn : f.LSN = e.LSN := congrArg Prod.fst eq
  have type : f.type = e.type := congrArg (·.2.1) eq
  have size : extent f = extent e := congrArg (·.2.2) eq
  exact ⟨f, hf, lsn, type, by rw [nextEntry_eq, nextEntry_eq, lsn, size]⟩

theorem Clean.shape (h : Clean l x) (same : l'.map shape = l.map shape) : Clean l' x := by
  intro e mem
  obtain ⟨f, held, lsn, _, next⟩ := exists_shape same mem
  exact lsn ▸ next ▸ h f held

theorem Covered.shape (h : Covered l x) (same : l'.map shape = l.map shape) : Covered l' x := by
  intro e mem lt
  obtain ⟨f, held, lsn, _, _⟩ := exists_shape same mem
  obtain ⟨c, hc, internal, le, stop⟩ := h f held (lsn ▸ lt)
  obtain ⟨d, hd, lsnD, typeD, nextD⟩ := exists_shape same.symm hc
  exact ⟨d, hd, typeD.trans internal, by omega, by omega⟩

theorem Run.shape (run : Run a l b) (same : l'.map shape = l.map shape) : Run a l' b := by
  induction l generalizing a l' with
  | nil =>
    rw [map_eq_nil_iff.mp same]
    exact run
  | cons e l ih =>
    obtain ⟨f, rest, rfl, eq, tail⟩ := map_eq_cons_iff.mp same
    have lsn : f.LSN = e.LSN := congrArg Prod.fst eq
    have size : extent f = extent e := congrArg (·.2.2) eq
    exact ⟨lsn.trans run.1, size ▸ run.2.1, size ▸ ih run.2.2 tail⟩

theorem Covered.back (run : Run a l b) (hf : Run start front a) (h : Covered (front ++ l) x) :
    Covered l x := by
  intro e mem lt
  obtain ⟨c, held, internal, le, stop⟩ := h e (mem_append_right _ mem) lt
  refine ⟨c, ?_, internal, le, stop⟩
  refine (mem_append.mp held).resolve_left fun old => ?_
  have := hf.bounds old
  have := run.bounds mem
  omega

theorem storable_clear (h : Storable e) : Storable { e with prevLSN := 0 } :=
  ⟨⟨h.valid.lsn, show (-2 ^ 63 : Int) ≤ 0 ∧ (0 : Int) < 2 ^ 63 by decide, h.valid.xid,
    h.valid.type, h.valid.size, h.valid.contents⟩, h.nonneg, h.bound⟩

theorem storable_clearFirst (storable : ∀ e ∈ l, Storable e) : ∀ e ∈ clearFirst l, Storable e := by
  induction l with
  | nil => exact storable
  | cons e l ih =>
    have first := storable e mem_cons_self
    have rest := fun x mem => storable x (mem_cons_of_mem e mem)
    intro f mem
    rw [clearFirst] at mem
    split at mem
    · cases mem_cons.mp mem with
      | inl eq => exact eq ▸ storable_clear first
      | inr later => exact rest f later
    · cases mem_cons.mp mem with
      | inl eq => exact eq ▸ first
      | inr later => exact ih rest f later

theorem crcsOk_clearFirst (h : CrcsOk crc32 crc l) (other : UInt32) :
    CrcsOk crc32 other (clearFirst l) := by
  induction l generalizing crc other with
  | nil => trivial
  | cons e l ih =>
    rw [CrcsOk] at h
    rw [clearFirst]
    split
    · next internal =>
      rw [if_pos internal] at h
      rw [CrcsOk, if_pos internal]
      exact ⟨.inl rfl, h.2⟩
    · next plain =>
      rw [if_neg plain] at h
      rw [CrcsOk, if_neg plain]
      exact ih h _

end ClearFirst

section Copy
variable {sw : State} {logged : List RawLogEntry}

theorem copiedLength_run (run : Run a l b) : a + State.copiedLength l = b := by
  induction l generalizing a with
  | nil => exact (Int.add_zero a).trans run
  | cons e l ih =>
    have rest := ih run.2.2
    rw [State.copiedLength, map_cons, sum_cons, ← State.copiedLength]
    rw [extent] at rest
    omega

theorem copyLog_spec (stale : Int) (h : FileInv crc32 sw logged) (r : ReadInv sw logged)
    (split : logged = front ++ back) (run : Run offset back sw.nextAvailableLSN)
    (expected : nextLSN = 0 ∨ nextLSN = offset) (first : Bool) (rounds : back.length < fuel) :
    ∃ after, (after = sw ∨ after = sw.syncLogInternal) ∧
      State.copyLog stale fuel sw offset nextLSN first =
        .ok (after, if first then clearFirst back else back) := by
  induction back generalizing sw front offset nextLSN first fuel with
  | nil =>
    obtain ⟨fuel, rfl⟩ : ∃ k, fuel = k + 1 := ⟨fuel - 1, by omega⟩
    have same : offset = sw.nextAvailableLSN := run
    refine ⟨sw, .inl rfl, ?_⟩
    rw [State.copyLog, State.readLSNEntry, if_pos (Int.le_of_eq same.symm), clearFirst, ite_self]
  | cons e back ih =>
    obtain ⟨fuel, rfl⟩ : ∃ k, fuel = k + 1 := ⟨fuel - 1, by omega⟩
    have lsn : e.LSN = offset := run.1
    have mem : e ∈ logged := split ▸ mem_append_right front mem_cons_self
    have rest : Run (nextEntry e) back sw.nextAvailableLSN := by
      rw [nextEntry_eq, lsn]
      exact run.2.2
    -- the read may flush the buffer, once
    obtain ⟨mid, cases, file, read, next⟩ : ∃ mid, (mid = sw ∨ mid = sw.syncLogInternal) ∧
        FileInv crc32 mid logged ∧ ReadInv mid logged ∧ mid = sw.readSynced offset := by
      rw [State.readSynced]
      split
      · exact ⟨_, .inr rfl, h.syncLogInternal, r.syncLogInternal h, rfl⟩
      · exact ⟨_, .inl rfl, h, r, rfl⟩
    have nextMid : mid.nextAvailableLSN = sw.nextAvailableLSN := by
      cases cases with
      | inl same => rw [same]
      | inr synced =>
        rw [synced, State.syncLogInternal]
        split <;> rfl
    have read_eq : sw.readLSNEntry stale offset = .ok (mid, some e) := by
      rw [next, ← lsn]
      exact readLSNEntry_entry h r mem
    have pass : ¬(nextLSN ≠ 0 ∧ nextLSN ≠ e.LSN) := by
      rw [lsn]
      omega
    have moved : logged = (front ++ [e]) ++ back := by
      rw [split, append_assoc]
      rfl
    obtain ⟨after, last, eq⟩ := ih file read moved (nextMid ▸ rest) (.inr rfl)
      (if (decide (first = true ∧ e.type = internalLog)) = true then false else first)
      (Nat.lt_of_succ_lt_succ rounds)
    refine ⟨after, ?_, ?_⟩
    · cases cases with
      | inl same => exact same ▸ last
      | inr synced =>
        rw [synced, syncLogInternal_idem r, or_self] at last
        exact .inr last
    · rw [State.copyLog, read_eq]
      simp only
      rw [if_neg pass, eq]
      simp only
      cases first with
      | false => simp
      | true =>
        rw [clearFirst]
        by_cases internal : e.type = internalLog <;> simp [internal]

/-- The entries of the log after a truncation at `LSN`. -/
def kept (sw : State) (logged : List RawLogEntry) (LSN : Int) : List RawLogEntry :=
  clearFirst (logged.filter fun e => LSN ≤ e.LSN) ++ [State.logCrcDummyEntry sw.nextAvailableLSN]

/-- The log after a truncation at `LSN`. -/
def truncated (sw : State) (logged : List RawLogEntry) (LSN internal : Int) : State :=
  let file := encodeInt lsnSize (LSN - lsnSize) ++ (kept sw logged LSN).flatMap frame
  { sw with
    file := file
    buffer := []
    synced := file.length
    globalOffset := LSN - lsnSize
    nextAvailableLSN := crcEnd sw.nextAvailableLSN
    flushedLSNInternal := internal
    crc := 0 }

theorem nextEntry_dummy (lsn : Int) : nextEntry (State.logCrcDummyEntry lsn) = crcEnd lsn := by
  rw [crcEnd, Int.add_assoc]
  rfl

theorem storable_dummy (nonneg : 0 ≤ lsn) (bound : crcEnd lsn < 2 ^ 63) :
    Storable (State.logCrcDummyEntry lsn) := by
  have next := nextEntry_dummy lsn
  have size : crcEnd lsn = lsn + 32 := by
    rw [crcEnd, lsnSize, rawSize]
    omega
  refine ⟨⟨?_, show (-2 ^ 63 : Int) ≤ 0 ∧ (0 : Int) < 2 ^ 63 by decide,
    show (-2 ^ 31 : Int) ≤ -1 ∧ (-1 : Int) < 2 ^ 31 by decide, show 0 < 2 ^ 32 by decide, rfl,
    fun clr => absurd clr (show internalLog ≠ clrLog by decide)⟩, nonneg, next ▸ bound⟩
  show -2 ^ 63 ≤ lsn ∧ lsn < 2 ^ 63
  omega

variable {LSN : Int} (h : FileInv crc32 sw logged) (entry : Boundary sw logged LSN)
include h entry

theorem FileInv.split_filter :
    ∃ front, logged = front ++ logged.filter (fun e => LSN ≤ e.LSN) ∧
      Run (sw.globalOffset + lsnSize) front LSN ∧
      Run LSN (logged.filter fun e => LSN ≤ e.LSN) sw.nextAvailableLSN := by
  obtain ⟨front, back, split, hf, hb⟩ : ∃ front back, logged = front ++ back ∧
      Run (sw.globalOffset + lsnSize) front LSN ∧ Run LSN back sw.nextAvailableLSN := by
    cases entry with
    | inl start =>
      obtain ⟨e, mem, rfl⟩ := start
      obtain ⟨front, back, split, hf, hb⟩ := h.run.split_at mem
      exact ⟨front, e :: back, split, hf, hb⟩
    | inr stop =>
      subst stop
      exact ⟨logged, [], (append_nil logged).symm, h.run, rfl⟩
  have same : logged.filter (fun f => LSN ≤ f.LSN) = back := split ▸ hf.filter_ge hb
  exact ⟨front, by rw [same]; exact split, hf, same.symm ▸ hb⟩

theorem kept_run : Run LSN (kept sw logged LSN) (crcEnd sw.nextAvailableLSN) := by
  obtain ⟨front, _, _, run⟩ := h.split_filter entry
  have next := nextEntry_dummy sw.nextAvailableLSN
  rw [nextEntry_eq] at next
  rw [← next]
  exact (Run.shape run (clearFirst_shape _)).concat rfl (show (0 : Int) < 32 by decide)

omit entry in
theorem kept_storable (LSN : Int) (bound : crcEnd sw.nextAvailableLSN < 2 ^ 63) :
    ∀ e ∈ kept sw logged LSN, Storable e := by
  have base := h.base
  have low := h.run.le
  intro e mem
  cases mem_append.mp mem with
  | inl old =>
    exact storable_clearFirst (fun f held => h.storable f (mem_filter.mp held).1) e old
  | inr new =>
    rw [mem_singleton.mp new]
    exact storable_dummy (by omega) bound

theorem truncateLog_spec (stale : Int) (r : ReadInv sw logged) (free : sw.writeMutex = none)
    (above : sw.globalOffset + lsnSize < LSN) (bound : crcEnd sw.nextAvailableLSN < 2 ^ 63) :
    ∃ internal, (internal = sw.flushedLSNInternal ∨ internal = sw.nextAvailableLSN) ∧
      sw.truncateLog stale LSN = .ok (truncated sw logged LSN internal) := by
  obtain ⟨front, split, _, run⟩ := h.split_filter entry
  have file : FileInv crc32 sw.fflush logged := h.congr (fflush_bytes sw) rfl rfl rfl
  have read : ReadInv sw.fflush logged := by
    refine ⟨r.clean, ?_, r.le⟩
    have inFile := r.inFile
    show sw.flushedLSNInternal ≤ sw.globalOffset + sw.fflush.file.length
    rw [fflush_file, length_append]
    omega
  have rounds : (logged.filter fun e => LSN ≤ e.LSN).length < sw.fflush.file.length := by
    have few := length_filter_le (fun e => decide (LSN ≤ e.LSN)) logged
    have many := length_le_flatMap h.storable
    rw [fflush_file, h.bytes, length_append, length_encodeInt, lsnSize]
    omega
  obtain ⟨after, last, copied⟩ :=
    copyLog_spec stale file read split run (.inl rfl) true rounds
  rw [if_pos rfl] at copied
  have next : after.nextAvailableLSN = sw.nextAvailableLSN := by
    cases last with
    | inl same => rw [same]; rfl
    | inr synced => rw [synced, State.syncLogInternal]; split <;> rfl
  -- the lengths that the truncation checks
  have copiedRun := copiedLength_run (Run.shape run (clearFirst_shape _))
  have keptRun := kept_run h entry
  have frames := Run.length keptRun (kept_storable h LSN bound)
  have total := copiedLength_run keptRun
  have length : ((encodeInt lsnSize (LSN - lsnSize) ++ (kept sw logged LSN).flatMap frame).length :
      Int) = lsnSize + (crcEnd sw.nextAvailableLSN - LSN) := by
    rw [length_append, length_encodeInt]
    omega
  refine ⟨after.flushedLSNInternal, ?_, ?_⟩
  · cases last with
    | inl same => exact .inl (by rw [same]; rfl)
    | inr synced => exact .inr (by rw [synced]; exact syncLogInternal_internal read)
  · rw [State.truncateLog, if_neg (by omega), free, Option.isSome_none]
    simp only [Bool.false_eq_true, if_false]
    rw [copied]
    simp only [next]
    rw [← kept, nextEntry_dummy, if_pos ⟨copiedRun.symm, total.symm, by omega, by omega⟩]
    cases last with
    | inl same => rw [same]; rfl
    | inr synced => rw [synced, State.syncLogInternal]; split <;> rfl

theorem truncated_fileInv (above : sw.globalOffset + lsnSize < LSN)
    (bound : crcEnd sw.nextAvailableLSN < 2 ^ 63) (internal : Int) :
    FileInv crc32 (truncated sw logged LSN internal) (kept sw logged LSN) := by
  obtain ⟨front, split, _, _⟩ := h.split_filter entry
  have base := h.base
  have crcs := h.crcs
  rw [split, crcsOk_append] at crcs
  refine ⟨append_nil _, ?_, kept_storable h LSN bound, ?_, bound, ?_, ?_⟩
  · show Run (LSN - lsnSize + lsnSize) _ _
    rw [Int.sub_add_cancel]
    exact kept_run h entry
  · show 0 ≤ LSN - lsnSize
    omega
  · exact (crcsOk_append _ _ _).mpr ⟨crcsOk_clearFirst crcs.2 0, .inl rfl, trivial⟩
  · rw [kept, crcAfter_append]
    rfl

end Copy
end Stasis.SafeWrites
