import Stasis.Logger.FilePool.Force

/-!
Reading an entry of the file pool log.

A reader flushes the ring up to the end of the length word, reads the length, flushes the
ring again, and reads the checksum and the entry. The target of the second flush leaves out
the checksum word, so that it ends four bytes in front of the end of the frame.
-/
namespace Stasis.FilePool
open Memory LittleEndian List Option

/-- Where a thread is in `stasis_log_file_pool_read_entry`. -/
inductive Reader where
  | begin
  | lenWait
  | find
  | len (c : Chunk)
  | bodyWait (c : Chunk) (len : Nat)
  | body (c : Chunk) (len : Nat)
  | returned (e : Option (List UInt8))
deriving DecidableEq, Repr

/-- The entry behind its checksum, if they match. -/
def checkCrc (crc32 : List UInt8 → UInt32) (buf : List UInt8) : Option (List UInt8) :=
  if decode (buf.take 4) = (crc32 (buf.drop 4)).toNat then some (buf.drop 4) else none

/-- `none` is a null pointer: the end of the file, of the log, or a wrong checksum. -/
def Pool.readStep (crc32 : List UInt8 → UInt32) (lsn : Int) (pool : Pool) :
    Reader → Except Stop (Pool × Reader)
  | .begin =>
    if pool.ring.wf > lsn then do
      let pool ← pool.callRing (.requestFlush (lsn + 4))
      .ok (pool, .lenWait)
    else .ok (pool, .returned none)
  | .lenWait => if lsn + 4 ≤ pool.ring.rt then .ok (pool, .find) else .error .waits
  | .find =>
    match getChunkFromOffset pool.live lsn with
    | none => .ok (pool, .returned none)
    | some chunk =>
      match pool.live[chunk]? with
      | some c => .ok (pool, .len c)
      | none => .error .fails
  | .len c =>
    match (pool.files c.fd).read (lsn - c.offset) 4 with
    | none => .ok (pool, .returned none)
    | some word =>
      if decode word = 0 then .ok (pool, .returned none)
      else if pool.ring.wf > lsn then do
        let pool ← pool.callRing (.requestFlush (lsn + 4 + decode word))
        .ok (pool, .bodyWait c (decode word))
      else .ok (pool, .returned none)
  | .bodyWait c len =>
    if lsn + 4 + len ≤ pool.ring.rt then .ok (pool, .body c len) else .error .waits
  | .body c len =>
    match (pool.files c.fd).read (4 + lsn - c.offset) (len + 4) with
    | none => .ok (pool, .returned none)
    | some buf => .ok (pool, .returned (checkCrc crc32 buf))
  | .returned _ => .error .waits

/-- How many steps are left. -/
def Reader.left : Reader → Nat
  | .begin => 6
  | .lenWait => 5
  | .find => 4
  | .len _ => 3
  | .bodyWait _ _ => 2
  | .body _ _ => 1
  | .returned _ => 0

def Pool.readAlone (crc32 : List UInt8 → UInt32) (lsn : Int) :
    Nat → Pool → Reader → Except Stop (Pool × Reader)
  | 0, pool, r => .ok (pool, r)
  | n + 1, pool, r => do
      let (pool, r) ← pool.readStep crc32 lsn r
      readAlone crc32 lsn n pool r

/-- The tail is not in the last four bytes of the frame when the second flush returns. -/
def EdgeFree (lsn : Int) (pool : Pool) : Reader → Prop
  | .bodyWait _ len => pool.ring.rt < lsn + 4 + len ∨ lsn + 8 + len ≤ pool.ring.rt
  | _ => True

theorem take_frame : (frame crc32 entry).take 4 = encode 4 entry.length := by
  rw [frame, append_assoc, take_left' (length_encode 4 _)]

theorem drop_frame : (frame crc32 entry).drop 4 = encode 4 (crc32 entry).toNat ++ entry := by
  rw [frame, append_assoc, drop_left' (length_encode 4 _)]

theorem checkCrc_frame : checkCrc crc32 ((frame crc32 entry).drop 4) = some entry := by
  have small : (crc32 entry).toNat < 256 ^ 4 := UInt32.toNat_lt (crc32 entry)
  rw [drop_frame, checkCrc, take_left' (length_encode 4 _), drop_left' (length_encode 4 _),
    decode_encode small]
  exact if_pos rfl

theorem Stored.read (h : Stored live files image stop) {a : Int} {n : Nat} (pos : 0 < n)
    (inside : ∀ x, a ≤ x → x < a + n → InChunk live i c x) (below : a + n ≤ stop) :
    (files c.fd).read (a - c.offset) n = some (loadList image a n) := by
  have last := (h (a + n - 1) (by omega) i c (inside _ (by omega) (by omega))).1
  rw [File.read, if_pos (by omega)]
  refine congrArg some (loadList_congr fun j lt => ?_)
  have byte := (h (a + j) (by omega) i c (inside _ (by omega) (by omega))).2
  rw [← byte]
  congr 1
  omega

theorem loadList_take (m : Bytes) (a : Int) (n k : Nat) :
    loadList m a n = (loadList m a (n + k)).take n := by
  rw [loadList_add, take_left' (length_loadList m a n)]

theorem loadList_drop (m : Bytes) (a : Int) (n k : Nat) :
    loadList m (a + n) k = (loadList m a (n + k)).drop n := by
  rw [loadList_add, drop_left' (length_loadList m a n)]

section Reading
variable {crc32 : List UInt8 → UInt32} {start lsn : Int} {entry : List UInt8} {pool after : Pool}

/-- The chunk of the entry. -/
def Holds (pool : Pool) (lsn : Int) (entry : List UInt8) (c : Chunk) : Prop :=
  ∃ i, ∀ x, lsn ≤ x → x < lsn + 8 + entry.length → InChunk pool.live i c x

/-- What the reader of the entry at `lsn` knows. -/
structure Reads (lsn : Int) (entry : List UInt8) (pool : Pool) (r : Reader) : Prop where
  logged : (lsn, entry) ∈ pool.logged
  covers : pool.Covers lsn
  phase : match r with
    | .begin | .lenWait => True
    | .find => lsn + 4 ≤ pool.ring.rt
    | .len c => lsn + 4 ≤ pool.ring.rt ∧ Holds pool lsn entry c
    | .bodyWait c len => lsn + 4 ≤ pool.ring.rt ∧ Holds pool lsn entry c ∧ len = entry.length
    | .body c len =>
      lsn + 8 + len ≤ pool.ring.rt ∧ Holds pool lsn entry c ∧ len = entry.length
    | .returned e => e = some entry

section
variable (h : Inv crc32 start pool)
include h

theorem Inv.holds (logged : (lsn, entry) ∈ pool.logged) (covers : pool.Covers lsn) :
    ∃ i c, getChunkFromOffset pool.live lsn = some i ∧ pool.live[i]? = some c ∧
      Holds pool lsn entry c := by
  have overhead : (frameOverhead : Int) = 8 := rfl
  obtain ⟨i, c, found, inside⟩ := h.placed.whole lsn (frameOverhead + entry.length)
    (.inr ⟨_, logged, rfl, rfl⟩) covers
  have first := inside lsn le_rfl (by omega)
  exact ⟨i, c, found, first.1, i, fun x low high => inside x low (by omega)⟩

theorem Holds.advance (h' : Inv crc32 start after) (adv : Advance lsn pool after)
    (logged : (lsn, entry) ∈ pool.logged) (covers : pool.Covers lsn) (tail : lsn < pool.ring.rt)
    (holds : Holds pool lsn entry c) : Holds after lsn entry c := by
  obtain ⟨i, inside⟩ := holds
  have first := inside lsn le_rfl (by omega)
  obtain ⟨j, here⟩ := adv.chunk i c first (lt_of_lt_of_le tail h.ring.order.1)
  obtain ⟨k, d, _, at_k, m, whole⟩ := h'.holds (adv.logged _ logged) (adv.covers covers)
  have same := (whole lsn le_rfl (by omega)).unique h'.chunks.sorted here
  subst same
  have eq := some.inj ((whole lsn le_rfl (by omega)).1.symm.trans here.1)
  exact ⟨m, eq ▸ whole⟩

theorem Reads.advance (h' : Inv crc32 start after) (adv : Advance lsn pool after)
    (reads : Reads lsn entry pool r) : Reads lsn entry after r := by
  have up := adv.rt
  have phase := reads.phase
  refine ⟨adv.logged _ reads.logged, adv.covers reads.covers, ?_⟩
  have keep : ∀ {c}, lsn < pool.ring.rt → Holds pool lsn entry c → Holds after lsn entry c :=
    fun tail holds => holds.advance h h' adv reads.logged reads.covers tail
  cases r with
  | begin | lenWait => trivial
  | find => exact le_trans phase up
  | len c => exact ⟨le_trans phase.1 up, keep (by omega) phase.2⟩
  | bodyWait c len => exact ⟨le_trans phase.1 up, keep (by omega) phase.2.1, phase.2.2⟩
  | body c len => exact ⟨le_trans phase.1 up, keep (by omega) phase.2.1, phase.2.2⟩
  | returned e => exact phase

theorem Inv.entry_read (logged : (lsn, entry) ∈ pool.logged) (holds : Holds pool lsn entry c)
    {k n : Nat} (pos : 0 < n) (fits : k + n ≤ 8 + entry.length)
    (tail : lsn + k + n ≤ pool.ring.rt) :
    (pool.files c.fd).read (lsn + k - c.offset) n = some (((frame crc32 entry).drop k).take n) := by
  obtain ⟨i, inside⟩ := holds
  have stored : Stored pool.live pool.files pool.image pool.ring.rt := h.placed.stored
  rw [stored.read pos (i := i) (fun x low high => inside x (by omega) (by omega)) tail]
  have framed := h.logged.framed _ logged
  have length : (frame crc32 entry).length = k + (n + (8 + entry.length - (k + n))) := by
    rw [length_frame]
    have overhead : frameOverhead = 8 := rfl
    omega
  rw [← framed, length, ← loadList_drop, ← loadList_take]

theorem Inv.length_read (logged : (lsn, entry) ∈ pool.logged) (holds : Holds pool lsn entry c)
    (tail : lsn + 4 ≤ pool.ring.rt) :
    (pool.files c.fd).read (lsn - c.offset) 4 = some (encode 4 entry.length) := by
  have read := h.entry_read logged holds (k := 0) (n := 4) (by omega) (by omega) (by omega)
  rw [drop_zero, take_frame] at read
  rw [← read]
  congr 1
  omega

theorem Inv.requestFlush_runs (off : Int) :
    ∃ s, pool.callRing (.requestFlush off) = .ok { pool with session := s } ∧
      s.ring.rt = pool.ring.rt ∧ s.ring.wf = pool.ring.wf ∧
        Inv crc32 start { pool with session := s } := by
  have run : (RingOp.requestFlush off).run pool.session = .ok { pool.session with
      ring := pool.session.ring.requestFlush off } := rfl
  have same := Inv.callFlush_tails run
  exact ⟨_, rfl, same.1, same.2, h.requestFlush run⟩

theorem readStep_reads (reads : Reads lsn entry pool r) (free : EdgeFree lsn pool r) :
    (∃ after r', pool.readStep crc32 lsn r = .ok (after, r') ∧ Inv crc32 start after ∧
        Reads lsn entry after r' ∧ after.ring.rt = pool.ring.rt ∧ r.left = r'.left + 1) ∨
      pool.readStep crc32 lsn r = .error .waits ∧
        (r.left = 0 ∨ pool.ring.rt < lsn + 8 + entry.length) := by
  have logged := reads.logged
  have end_le : lsn + frameOverhead + entry.length ≤ pool.ring.wf := h.entry_le_wf logged
  have sized : 8 ≤ entry.length ∧ entry.length < 2 ^ 32 ∧ _ := h.logged.sized _ logged
  have overhead : (frameOverhead : Int) = 8 := rfl
  have below : lsn < pool.ring.wf := by omega
  cases r with
  | begin =>
    obtain ⟨s, call, rt, _, inv⟩ := h.requestFlush_runs (lsn + 4)
    refine .inl ⟨_, .lenWait, ?_, inv, ⟨logged, reads.covers, trivial⟩, rt, rfl⟩
    rw [Pool.readStep, if_pos below, call]
    rfl
  | lenWait =>
    rw [Pool.readStep]
    by_cases tail : lsn + 4 ≤ pool.ring.rt
    · exact .inl ⟨pool, .find, if_pos tail, h, ⟨logged, reads.covers, tail⟩, rfl, rfl⟩
    · exact .inr ⟨if_neg tail, .inr (by omega)⟩
  | find =>
    obtain ⟨i, c, found, at_i, holds⟩ := h.holds logged reads.covers
    refine .inl ⟨pool, .len c, ?_, h, ⟨logged, reads.covers, reads.phase, holds⟩, rfl, rfl⟩
    rw [Pool.readStep, found]
    simp only [at_i]
  | len c =>
    obtain ⟨tail, holds⟩ := reads.phase
    have word := h.length_read logged holds tail
    have length : decode (encode 4 entry.length) = entry.length := decode_encode sized.2.1
    have some : entry.length ≠ 0 := by omega
    obtain ⟨s, call, rt, _, inv⟩ := h.requestFlush_runs (lsn + 4 + entry.length)
    rw [← rt] at tail
    refine .inl ⟨_, .bodyWait c entry.length, ?_, inv,
      ⟨logged, reads.covers, tail, holds, rfl⟩, rt, rfl⟩
    rw [Pool.readStep, word]
    simp only [length, if_neg some, if_pos below, call]
    rfl
  | bodyWait c len =>
    obtain ⟨_, holds, eq⟩ := reads.phase
    rw [Pool.readStep]
    by_cases tail : lsn + 4 + len ≤ pool.ring.rt
    · have far : lsn + 8 + len ≤ pool.ring.rt :=
        free.resolve_left fun low => absurd tail (not_le.mpr low)
      exact .inl ⟨pool, .body c len, if_pos tail, h, ⟨logged, reads.covers, far, holds, eq⟩, rfl,
        rfl⟩
    · exact .inr ⟨if_neg tail, .inr (by omega)⟩
  | body c len =>
    obtain ⟨tail, holds, rfl⟩ := reads.phase
    refine .inl ⟨pool, .returned (some entry), ?_, h, ⟨logged, reads.covers, rfl⟩, rfl, rfl⟩
    have buf := h.entry_read logged holds (k := 4) (n := entry.length + 4) (by omega) (by omega)
      (by omega)
    have place : lsn + (4 : Nat) - c.offset = 4 + lsn - c.offset := by omega
    have all : ((frame crc32 entry).drop 4).length ≤ entry.length + 4 := by
      rw [length_drop, length_frame]
      omega
    rw [place, take_of_length_le all] at buf
    rw [Pool.readStep, buf]
    simp only [checkCrc_frame]
  | returned e => exact .inr ⟨rfl, .inl rfl⟩

theorem readAlone_returns (reads : Reads lsn entry pool r)
    (back : lsn + 8 + entry.length ≤ pool.ring.rt) :
    ∃ after, pool.readAlone crc32 lsn r.left r = .ok (after, .returned (some entry)) := by
  induction left : r.left generalizing pool r with
  | zero =>
    cases r with
    | returned e => exact ⟨pool, by rw [reads.phase]; rfl⟩
    | _ => cases left
  | succ n ih =>
    have free : EdgeFree lsn pool r := by
      cases r with
      | bodyWait c len =>
        have same : len = entry.length := reads.phase.2.2
        exact .inr (by omega)
      | _ => trivial
    cases readStep_reads h reads free with
    | inl next =>
      obtain ⟨mid, r', step, inv, knows, rt, count⟩ := next
      obtain ⟨after, rest⟩ := ih inv knows (rt ▸ back) (by omega)
      exact ⟨after, by rw [Pool.readAlone, step]; exact rest⟩
    | inr waits => omega

end

theorem Interleaved.reads (h : Inv crc32 start pool0) (logged : (lsn, entry) ∈ pool0.logged)
    (covers : pool0.Covers lsn)
    (run : Interleaved crc32 lsn (Pool.readStep crc32 lsn) (EdgeFree lsn) pool0 .begin pool r) :
    Inv crc32 start pool ∧ Reads lsn entry pool r := by
  have first : Reads lsn entry pool0 .begin := ⟨logged, covers, trivial⟩
  refine run.invariant h first (fun _ _ _ h h' adv => Reads.advance h h' adv) ?_
  intro pool after r r' h free reads step
  cases readStep_reads h reads free with
  | inl next =>
    obtain ⟨mid, _, step', inv, knows, _⟩ := next
    cases step.symm.trans step'
    exact ⟨inv, knows⟩
  | inr waits => cases step.symm.trans waits.1

theorem readStep_ne_fails (h : Inv crc32 start pool) (reads : Reads lsn entry pool r)
    (free : EdgeFree lsn pool r) : pool.readStep crc32 lsn r ≠ .error .fails := by
  intro fails
  cases readStep_reads h reads free with
  | inl next =>
    obtain ⟨_, _, step, _⟩ := next
    cases fails.symm.trans step
  | inr waits => cases fails.symm.trans waits.1

/-- A reader of a written entry that meets no edge in the last four bytes gets exactly the
entry: what it reads was written back, and no step of it fails. -/
theorem read_whole_entry {start : Nat} {pool0 : Pool} {r : Reader} (h : Reached crc32 start pool0)
    (logged : (lsn, entry) ∈ pool0.logged) (covers : pool0.Covers lsn)
    (run : Interleaved crc32 lsn (Pool.readStep crc32 lsn) (EdgeFree lsn) pool0 .begin pool r) :
    (∀ e, r = .returned e → e = some entry) ∧
      (∀ c len, r = .body c len → len = entry.length ∧
        Stored pool.live pool.files pool.image (lsn + 8 + entry.length)) ∧
      (EdgeFree lsn pool r → pool.readStep crc32 lsn r ≠ .error .fails) ∧
      (lsn + 8 + entry.length ≤ pool.ring.rt →
        ∃ after, pool.readAlone crc32 lsn r.left r = .ok (after, .returned (some entry))) := by
  obtain ⟨inv, reads⟩ := run.reads h.inv logged covers
  refine ⟨fun e eq => ?_, fun c len eq => ?_, readStep_ne_fails inv reads,
    readAlone_returns inv reads⟩
  · subst eq
    exact reads.phase
  · subst eq
    obtain ⟨tail, _, same⟩ := reads.phase
    exact ⟨same, fun x below => inv.placed.stored x (by omega)⟩

end Reading

/-- An entry that the worker has written back is read. -/
theorem read_whole_entry_old : ∃ pool after : Pool, pool.ring.rt = 17 ∧
    pool.readAlone (fun _ => 0) 1 6 .begin = .ok (after, .returned (some (encode 8 1))) := by
  obtain ⟨pool, run, live, rt, logged⟩ : ∃ pool, [.reserveSpace 1 8, .place 1, .flushed 1,
      .writeEntry 1 (encode 8 1), .requestFlush 17, .consume, .lookup, .pwrite 16, .finish].foldlM
        (Pool.runAllowed fun _ => 0) created = .ok pool ∧ pool.live = [⟨1, 0⟩] ∧
      pool.ring.rt = 17 ∧ (1, encode 8 1) ∈ pool.logged := by
    decide +kernel
  have reached := (Reached.opened (created_opened fun _ => 0)).steps run
  have covers : pool.Covers 1 := fun c head => by
    rw [live] at head
    rw [← some.inj head]
  obtain ⟨after, read⟩ := (read_whole_entry reached logged covers .start).2.2.2 (by rw [rt]; decide)
  exact ⟨pool, after, rt, read⟩

/-- The worker has written all but the last four bytes of the entry. The second flush does not
wait for them, and the reader finds the end of the file. -/
theorem read_cut_entry : ∃ pool after, Reached (fun _ => 0) 1 pool ∧
    (1, cutEntry) ∈ pool.logged ∧ pool.Covers 1 ∧
      pool.readAlone (fun _ => 0) 1 6 .begin = .ok (after, .returned none) := by
  generalize (fun _ => 0 : List UInt8 → UInt32) = crc32
  obtain ⟨pool, reached, cut⟩ := straddled_reached crc32 length_cutEntry lsnOf_cutEntry
  have logged : (1, cutEntry) ∈ pool.logged := by rw [cut.logged]; exact mem_cons_self
  have covers : pool.Covers 1 := fun c head => by
    rw [cut.live] at head
    rw [← some.inj head]
  obtain ⟨s1, call1, rt1, wf1, inv1⟩ := reached.inv.requestFlush_runs 5
  obtain ⟨s2, call2, rt2, _⟩ := inv1.requestFlush_runs 16777217
  let p1 : Pool := { pool with session := s1 }
  let p2 : Pool := { pool with session := s2 }
  have rt1 : p1.ring.rt = 16777217 := rt1.trans cut.rt
  have rt2 : p2.ring.rt = 16777217 := rt2.trans rt1
  have wf1 : p1.ring.wf = 16777221 := wf1.trans cut.wf
  have inv1 : Inv crc32 1 p1 := inv1
  have live1 : p1.live = [⟨1, 0⟩] := cut.live
  obtain ⟨i, c, found, at_i, holds⟩ := inv1.holds logged covers
  have i_eq : i = 0 := by
    rw [live1] at found
    exact (some.inj found).symm
  have c_eq : c = ⟨1, 0⟩ := by
    rw [live1, i_eq] at at_i
    exact (some.inj at_i).symm
  subst i_eq c_eq
  have word := inv1.length_read logged holds (by rw [rt1]; decide)
  have length : decode (encode 4 cutEntry.length) = 16777212 := by
    rw [length_cutEntry]
    decide +kernel
  refine ⟨pool, p2, reached, logged, covers, ?_⟩
  have step0 : pool.readStep crc32 1 .begin = .ok (p1, .lenWait) := by
    rw [Pool.readStep, if_pos (by rw [cut.wf]; decide)]
    exact congrArg (· >>= _) call1
  have step1 : p1.readStep crc32 1 .lenWait = .ok (p1, .find) :=
    if_pos (by rw [rt1]; decide)
  have step2 : p1.readStep crc32 1 .find = .ok (p1, .len ⟨1, 0⟩) := by
    rw [Pool.readStep, found]
    simp only [at_i]
  have step3 : p1.readStep crc32 1 (.len ⟨1, 0⟩) = .ok (p2, .bodyWait ⟨1, 0⟩ 16777212) := by
    rw [Pool.readStep, word]
    simp only [length]
    rw [if_neg (by decide), if_pos (by rw [wf1]; decide)]
    exact congrArg (· >>= _) call2
  have step4 : p2.readStep crc32 1 (.bodyWait ⟨1, 0⟩ 16777212) = .ok (p2, .body ⟨1, 0⟩ 16777212) :=
    if_pos (by rw [rt2]; decide)
  have step5 : p2.readStep crc32 1 (.body ⟨1, 0⟩ 16777212) = .ok (p2, .returned none) := by
    rw [Pool.readStep, File.read, if_neg (by simp only [p2, cut.len]; decide)]
  simp only [Pool.readAlone, step0, step1, step2, step3, step4, step5, bind, Except.bind]

end Stasis.FilePool
