import Stasis.Util.Ringbuffer
import Stasis.Library.Fallible
import Stasis.Library.Watermark
import Stasis.Library.Tiling

/-!
Safety of the ring buffer under every interleaving of its calls.

A session is a ring with the ranges that were reserved and the ranges that were returned
to readers. Each of the three tails of the ring is the least offset among the handles
that are out, or the frontier they were taken at; what a call does to one of them is said
once, and the invariant of the session follows for each call.
-/
namespace Stasis
open Watermark Tiling List AggregateMin

/-- The set `min` holds the handles that are out, and `mark` is the watermark of their
numbers. -/
structure Tracks (min : AggregateMin) (out : Handle → Prop) (frontier mark : Int) : Prop where
  wellFormed : min.WellFormed
  members : ∀ h, min.Member h ↔ out h
  isMark : IsMark (fun x => ∃ h, out h ∧ h.lsn = x) frontier mark

namespace Tracks
variable {min : AggregateMin}

theorem start (frontier : Int) (none : ∀ h, ¬out h) : Tracks .init out frontier frontier :=
  ⟨init_wellFormed,
    fun h => iff_of_false (not_member_init h) (none h),
    IsMark.start frontier fun _ ⟨h, held, _⟩ => none h held⟩

section
variable {frontier : Int} (h : Tracks min out frontier mark)
include h

theorem congr (same : ∀ h, out' h ↔ out h) : Tracks min out' frontier mark :=
  ⟨h.wellFormed, fun g => (h.members g).trans (same g).symm,
    h.isMark.congr fun _ => exists_congr fun g => and_congr_left fun _ => same g⟩

theorem take (thread : Nat) (at_frontier : a.lsn = frontier) (advance : frontier < frontier')
    (taken : ∀ h, out' h ↔ h = a ∨ out h) : Tracks (min.add thread a) out' frontier' mark := by
  refine ⟨add_wellFormed h.wellFormed thread fun g member eq => ?_, fun g => ?_,
    h.isMark.take advance fun x => ?_⟩
  · have below := h.isMark.below g.lsn ⟨g, (h.members g).mp member, rfl⟩
    omega
  · rw [add_member, taken, h.members]
  · constructor
    · intro ⟨g, held, eq⟩
      refine ((taken g).mp held).imp (fun same => ?_) fun old => ⟨g, old, eq⟩
      rw [← eq, same, at_frontier]
    · intro held
      cases held with
      | inl eq => exact ⟨a, (taken a).mpr (.inl rfl), at_frontier.trans eq.symm⟩
      | inr old =>
        obtain ⟨g, old, eq⟩ := old
        exact ⟨g, (taken g).mpr (.inr old), eq⟩

theorem give (thread : Nat) (held : out a) (given : ∀ h, out' h ↔ out h ∧ h ≠ a) :
    ∃ o min', Ringbuffer.removeAndCompute min thread a = .ok (o, min') ∧
      Tracks min' out' frontier ((o.map (·.lsn)).getD frontier) ∧
      mark ≤ (o.map (·.lsn)).getD frontier := by
  obtain ⟨min1, removed, wf1, members1⟩ :=
    remove_spec h.wellFormed thread ((h.members a).mpr held)
  obtain ⟨least, wf2, members2⟩ := compute_spec wf1
  have same : ∀ g, min1.Member g ↔ out' g := fun g => by rw [members1, given, h.members]
  have out_of : ∀ x, (∃ g, out' g ∧ g.lsn = x) → ∃ g, out g ∧ g.lsn = x :=
    fun x ⟨g, held, eq⟩ => ⟨g, ((given g).mp held).1, eq⟩
  have isMark : IsMark (fun x => ∃ g, out' g ∧ g.lsn = x) frontier
      ((min1.compute.1.map (·.lsn)).getD frontier) := by
    cases found : min1.compute.1 with
    | none =>
      rw [found] at least
      exact IsMark.start frontier fun x ⟨g, held, _⟩ => least g ((same g).mpr held)
    | some m =>
      rw [found] at least
      have out_m := (same m).mp least.1
      have below := h.isMark.below m.lsn (out_of _ ⟨m, out_m, rfl⟩)
      refine ⟨fun x ⟨g, held, eq⟩ => ?_, fun x held => h.isMark.below x (out_of x held),
        le_of_lt below, .inr ⟨m, out_m, rfl⟩⟩
      exact eq ▸ least.2 g ((same g).mpr held)
  refine ⟨min1.compute.1, min1.compute.2, ?_,
    ⟨wf2, fun g => (members2 g).trans (same g), isMark⟩, h.isMark.mono isMark out_of⟩
  rw [Ringbuffer.removeAndCompute, removed]

end

end Tracks

namespace Ringbuffer
variable {ring : Ringbuffer} {out out' : Handle → Prop}

section Done
variable (thread : Nat) (held : out a) (given : ∀ h, out' h ↔ out h ∧ h ≠ a)
include held given

theorem writeDone_spec (h : Tracks ring.minWriter out ring.wf ring.wt) :
    ∃ min' wt', ring.writeDone thread a = .ok { ring with minWriter := min', wt := wt' } ∧
      Tracks min' out' ring.wf wt' ∧ ring.wt ≤ wt' := by
  obtain ⟨o, min', run, tracks, up⟩ := h.give thread held given
  refine ⟨min', (o.map (·.lsn)).getD ring.wf, ?_, tracks, up⟩
  simp only [writeDone, run, bind, Except.bind]
  split
  · exact if_pos ⟨up, tracks.isMark.le⟩
  · next same => rw [not_not.mp same]

theorem readDone_spec (h : Tracks ring.minReader out ring.rf ring.rt) :
    ∃ min' rt', ring.readDone thread a = .ok { ring with minReader := min', rt := rt' } ∧
      Tracks min' out' ring.rf rt' ∧ ring.rt ≤ rt' := by
  obtain ⟨o, min', run, tracks, up⟩ := h.give thread held given
  refine ⟨min', (o.map (·.lsn)).getD ring.rf, ?_, tracks, up⟩
  simp only [readDone, run, bind, Except.bind]
  split
  · exact if_pos ⟨up, tracks.isMark.le⟩
  · next same => rw [not_not.mp same]

theorem readingWriterDone_spec (h : Tracks ring.minReadingWriter out ring.wf ring.rwt) :
    ∃ min' rwt', ring.readingWriterDone thread a =
        .ok { ring with minReadingWriter := min', rwt := rwt' } ∧
      Tracks min' out' ring.wf rwt' ∧ ring.rwt ≤ rwt' := by
  obtain ⟨o, min', run, tracks, up⟩ := h.give thread held given
  refine ⟨min', (o.map (·.lsn)).getD ring.wf, ?_, tracks, up⟩
  have low := h.isMark.low a.lsn ⟨a, held, rfl⟩
  have high := h.isMark.below a.lsn ⟨a, held, rfl⟩
  simp only [readingWriterDone, run, bind, Except.bind]
  split
  · exact if_pos ⟨low, le_of_lt high⟩
  · next same => rw [not_not.mp same]

end Done

theorem effectiveRt_eq (ring : Ringbuffer) : ring.effectiveRt = min ring.rt ring.rwt := by
  rw [effectiveRt]
  split <;> omega

theorem effectiveRt_le (ring : Ringbuffer) : ring.effectiveRt ≤ ring.rt ∧
      ring.effectiveRt ≤ ring.rwt := by
  rw [effectiveRt_eq]
  omega

section
variable (low : ring.effectiveRt ≤ ring.wf) (room : ring.wf - ring.effectiveRt ≤ ring.mask)
include low room

theorem freespace_eq : ring.freespace = ring.mask - (ring.wf - ring.effectiveRt) := by
  have wrap : ring.effectiveRt - ring.wf - 1 =
      (ring.mask - (ring.wf - ring.effectiveRt)) + (ring.mask + 1) * (-1) := by omega
  rw [freespace, masked, wrap, Int.add_mul_emod_self_left]
  exact Int.emod_eq_of_lt (by omega) (by omega)

theorem reserveSpace_spec (nonneg : 0 ≤ ring.wf) (thread ptr : Nat) (sz : Int) :
    ring.reserveSpace thread ptr sz =
      if ring.wf + sz - ring.effectiveRt ≤ ring.mask then
        .ok (ring.wf, { ring with
          wf := ring.wf + sz
          minWriter := ring.minWriter.add thread ⟨ptr, ring.wf⟩
          minReadingWriter := ring.minReadingWriter.add thread ⟨ptr, ring.wf⟩ })
      else .error .waits := by
  rw [reserveSpace, nbReserveSpace, freespace_eq low room]
  by_cases fits : ring.wf + sz - ring.effectiveRt ≤ ring.mask
  · have ne : ring.wf ≠ ringFull := by simp only [ringFull]; omega
    rw [if_pos fits, if_neg (by omega)]
    simp only [if_neg ne]
  · rw [if_neg fits, if_pos (by omega)]
    rfl

end

/-- How many bytes a reader gets that asks for `sz`. -/
def batchSize (ring : Ringbuffer) (sz : Int) : Int :=
  if ring.requestedSize sz = ringNext then ring.wt - ring.rf else ring.requestedSize sz

theorem batchSize_cases (ask : sz = ringNext ∨ 0 < sz) :
    (ring.requestedSize sz = ringNext ∧ ring.batchSize sz = ring.wt - ring.rf) ∨
      (ring.requestedSize sz ≠ ringNext ∧ ring.batchSize sz = sz ∧ 0 < sz) := by
  have either : ring.requestedSize sz = ringNext ∨ ring.requestedSize sz = sz := by
    rw [requestedSize]
    split
    · exact .inl rfl
    · split
      · exact .inl rfl
      · exact .inr rfl
  by_cases all : ring.requestedSize sz = ringNext
  · exact .inl ⟨all, if_pos all⟩
  · have size := either.resolve_left all
    exact .inr ⟨all, (if_neg all).trans size, ask.resolve_left (size ▸ all)⟩

/-- A reader that does not wait gets the bytes from the read frontier on, all of them
written. -/
theorem consumeBytes_spec (rt_rf : ring.rt ≤ ring.rf) (rf_wt : ring.rf ≤ ring.wt)
    (nonneg : 0 ≤ ring.rf) (opened : ring.shutdown = false) (ask : sz = ringNext ∨ 0 < sz)
    (thread ptr : Nat) :
    ring.consumeBytes thread ptr sz =
      if 0 < ring.batchSize sz ∧ ring.rf + ring.batchSize sz ≤ ring.wt then
        .ok (ring.rf, ring.batchSize sz, { ring with
          rf := ring.rf + ring.batchSize sz
          minReader := ring.minReader.add thread ⟨ptr, ring.rf⟩ })
      else .error .waits := by
  have size : (ring.requestedSize sz = ringNext ∧ _) ∨ _ := batchSize_cases ask
  have ne : ring.rf ≠ ringVolatile := by simp only [ringVolatile]; omega
  have closed : ¬(ring.shutdown = true ∧ ring.rt = ring.wf) := by simp [opened]
  have taken : ring.nbConsumeBytes ringNext (ring.requestedSize sz) =
      if 0 < ring.batchSize sz ∧ ring.rf + ring.batchSize sz ≤ ring.wt then
        (ring.rf, ring.batchSize sz, { ring with rf := ring.rf + ring.batchSize sz })
      else (ringVolatile, ring.batchSize sz, ring) := by
    simp only [nbConsumeBytes, if_true]
    have eq : (if ring.requestedSize sz = ringNext then ring.wt - ring.rf
      else ring.requestedSize sz) = ring.batchSize sz := rfl
    rw [eq]
    by_cases some : 0 < ring.batchSize sz ∧ ring.rf + ring.batchSize sz ≤ ring.wt
    · rw [if_pos some, if_neg (by omega), if_neg (by omega), if_neg (by omega), if_neg (by omega),
        if_pos (by omega)]
    · rw [if_neg some]
      by_cases empty : ring.requestedSize sz = ringNext ∧ ring.batchSize sz = 0
      · rw [if_pos empty]
      · have beyond : ring.rf + ring.batchSize sz > ring.wt := by omega
        rw [if_neg empty, if_neg (by omega), if_neg (by omega), if_pos beyond]
  rw [consumeBytes, if_neg closed, taken]
  by_cases some : 0 < ring.batchSize sz ∧ ring.rf + ring.batchSize sz ≤ ring.wt
  · rw [if_pos some, if_pos some]
    exact if_neg ne
  · rw [if_neg some, if_neg some]
    rfl

end Ringbuffer

/-- A range of the ring that a writer has reserved. -/
structure Reservation where
  handle : Handle
  size : Int
  written : Bool
  applied : Bool
deriving DecidableEq, Repr

/-- A range of the ring that was returned to a reader. -/
structure Batch where
  handle : Handle
  size : Int
  finished : Bool
deriving DecidableEq, Repr

abbrev Reservation.off (r : Reservation) : Int := r.handle.lsn
abbrev Batch.off (b : Batch) : Int := b.handle.lsn

/-- A ring with what was reserved and what was returned, oldest first. -/
structure RingSession where
  ring : Ringbuffer
  reserved : List Reservation
  consumed : List Batch

inductive RingOp where
  | reserveSpace (thread ptr : Nat) (sz : Int)
  | writeDone (thread : Nat) (handle : Handle)
  | readingWriterDone (thread : Nat) (handle : Handle)
  | consumeBytes (thread ptr : Nat) (sz : Int)
  | readDone (thread : Nat) (handle : Handle)
  | requestFlush (off : Int)
deriving DecidableEq, Repr

namespace RingSession

def init (base : Nat) (initialOffset : Nat) : RingSession :=
  ⟨Ringbuffer.init base initialOffset, [], []⟩

section
variable (s : RingSession) (h : Handle)

def Writing : Prop :=
  ∃ r ∈ s.reserved, r.handle = h ∧ r.written = false

def Applying : Prop :=
  ∃ r ∈ s.reserved, r.handle = h ∧ r.applied = false

def Reading : Prop :=
  ∃ b ∈ s.consumed, b.handle = h ∧ b.finished = false

def markWritten : List Reservation :=
  s.reserved.map fun r => if r.handle = h then { r with written := true } else r

def markApplied : List Reservation :=
  s.reserved.map fun r => if r.handle = h then { r with applied := true } else r

def markFinished : List Batch :=
  s.consumed.map fun b => if b.handle = h then { b with finished := true } else b

end

end RingSession

namespace RingOp

/-- What a caller has to keep to: a reservation fits into the ring, each call that ends a
range is made once, and a handle is not used again while it is out. -/
def Allowed (s : RingSession) : RingOp → Prop
  | reserveSpace _ ptr sz => 1 ≤ sz ∧ sz ≤ s.ring.mask ∧
      ∀ r ∈ s.reserved, r.written = false ∨ r.applied = false → r.handle.ptr ≠ ptr
  | writeDone _ h => s.Writing h
  | readingWriterDone _ h => s.Applying h
  | consumeBytes _ ptr sz => (sz = ringNext ∨ 0 < sz) ∧
      ∀ b ∈ s.consumed, b.finished = false → b.handle.ptr ≠ ptr
  | readDone _ h => s.Reading h
  | requestFlush _ => True

instance (s : RingSession) : (op : RingOp) → Decidable (op.Allowed s)
  | reserveSpace _ _ _ => inferInstanceAs (Decidable (_ ∧ _ ∧ _))
  | writeDone _ h =>
    inferInstanceAs (Decidable (∃ r ∈ s.reserved, r.handle = h ∧ r.written = false))
  | readingWriterDone _ h =>
    inferInstanceAs (Decidable (∃ r ∈ s.reserved, r.handle = h ∧ r.applied = false))
  | consumeBytes _ _ _ => inferInstanceAs (Decidable (_ ∧ _))
  | readDone _ h =>
    inferInstanceAs (Decidable (∃ b ∈ s.consumed, b.handle = h ∧ b.finished = false))
  | requestFlush _ => inferInstanceAs (Decidable True)

def run (s : RingSession) : RingOp → Except Stop RingSession
  | reserveSpace thread ptr sz => do
      let (off, ring) ← s.ring.reserveSpace thread ptr sz
      .ok { s with ring := ring, reserved := s.reserved ++ [⟨⟨ptr, off⟩, sz, false, false⟩] }
  | writeDone thread h => do
      let ring ← s.ring.writeDone thread h
      .ok { s with ring := ring, reserved := s.markWritten h }
  | readingWriterDone thread h => do
      let ring ← s.ring.readingWriterDone thread h
      .ok { s with ring := ring, reserved := s.markApplied h }
  | consumeBytes thread ptr sz => do
      let (off, sz, ring) ← s.ring.consumeBytes thread ptr sz
      .ok { s with ring := ring, consumed := s.consumed ++ [⟨⟨ptr, off⟩, sz, false⟩] }
  | readDone thread h => do
      let ring ← s.ring.readDone thread h
      .ok { s with ring := ring, consumed := s.markFinished h }
  | requestFlush off => .ok { s with ring := s.ring.requestFlush off }

/-- What a call that returns has done. -/
def Effect (s s' : RingSession) : RingOp → Prop
  | reserveSpace _ ptr sz => s.ring.wf + sz - s.ring.effectiveRt ≤ s.ring.mask ∧
      ∃ writers readingWriters, s' = { s with
        ring := { s.ring with
          wf := s.ring.wf + sz, minWriter := writers, minReadingWriter := readingWriters }
        reserved := s.reserved ++ [⟨⟨ptr, s.ring.wf⟩, sz, false, false⟩] }
  | writeDone _ h => ∃ writers wt, s.ring.wt ≤ wt ∧
      s' = { s with
        ring := { s.ring with minWriter := writers, wt := wt }, reserved := s.markWritten h }
  | readingWriterDone _ h => ∃ readingWriters rwt, s.ring.rwt ≤ rwt ∧
      s' = { s with
        ring := { s.ring with minReadingWriter := readingWriters, rwt := rwt }
        reserved := s.markApplied h }
  | consumeBytes _ ptr sz => 0 < s.ring.batchSize sz ∧
      s.ring.rf + s.ring.batchSize sz ≤ s.ring.wt ∧
      ∃ readers, s' = { s with
        ring := { s.ring with rf := s.ring.rf + s.ring.batchSize sz, minReader := readers }
        consumed := s.consumed ++ [⟨⟨ptr, s.ring.rf⟩, s.ring.batchSize sz, false⟩] }
  | readDone _ h => ∃ readers rt, s.ring.rt ≤ rt ∧
      s' = { s with
        ring := { s.ring with minReader := readers, rt := rt }, consumed := s.markFinished h }
  | requestFlush off => s' = { s with ring := s.ring.requestFlush off }

/-- The part of `Allowed` that a single call depends on. -/
def Sound (s : RingSession) : RingOp → Prop
  | reserveSpace _ _ sz => 1 ≤ sz
  | writeDone _ h => s.Writing h
  | readingWriterDone _ h => s.Applying h
  | consumeBytes _ _ sz => sz = ringNext ∨ 0 < sz
  | readDone _ h => s.Reading h
  | requestFlush _ => True

theorem Allowed.sound {op : RingOp} (h : op.Allowed s) : op.Sound s := by
  cases op with
  | reserveSpace _ _ _ => exact h.1
  | consumeBytes _ _ _ => exact h.1
  | writeDone _ _ | readingWriterDone _ _ | readDone _ _ => exact h
  | requestFlush _ => trivial

end RingOp

namespace RingSession

/-- The ring and what was reserved and returned fit together. -/
structure Valid (start : Int) (s : RingSession) : Prop where
  nonneg : 0 ≤ start
  opened : s.ring.shutdown = false
  writers : Tracks s.ring.minWriter s.Writing s.ring.wf s.ring.wt
  appliers : Tracks s.ring.minReadingWriter s.Applying s.ring.wf s.ring.rwt
  readers : Tracks s.ring.minReader s.Reading s.ring.rf s.ring.rt
  reserved : Tiles Reservation.off Reservation.size start s.reserved s.ring.wf
  consumed : Tiles Batch.off Batch.size start s.consumed s.ring.rf
  rf_le_wt : s.ring.rf ≤ s.ring.wt
  room : s.ring.wf - s.ring.effectiveRt ≤ s.ring.mask

theorem init_valid (base initialOffset : Nat) : (init base initialOffset).Valid initialOffset := by
  have pow : (1 : Int) ≤ 2 ^ base := by exact_mod_cast Nat.one_le_two_pow
  refine ⟨Int.natCast_nonneg _, rfl, Tracks.start _ ?_, Tracks.start _ ?_, Tracks.start _ ?_,
    rfl, rfl, le_rfl, ?_⟩
  · exact fun h ⟨r, mem, _⟩ => absurd mem not_mem_nil
  · exact fun h ⟨r, mem, _⟩ => absurd mem not_mem_nil
  · exact fun h ⟨r, mem, _⟩ => absurd mem not_mem_nil
  · simp only [init, Ringbuffer.init, Ringbuffer.effectiveRt]
    omega

variable {T : Type} {s : RingSession} {l : List T} {handle : T → Handle} {flag : T → Bool}
  {mark : T → T} {h : Handle} {base start : Nat}

theorem exists_mem_map {P : T → Prop} : (∃ r ∈ l.map f, P r) ↔ ∃ r ∈ l, P (f r) := by
  constructor
  · intro ⟨r, mem, held⟩
    obtain ⟨r', mem', eq⟩ := mem_map.mp mem
    exact ⟨r', mem', eq ▸ held⟩
  · exact fun ⟨r, mem, held⟩ => ⟨f r, mem_map_of_mem mem, held⟩

theorem exists_marked (sets : ∀ r, flag (mark r) = true) :
    (∃ r ∈ l.map (fun r => if handle r = h then mark r else r),
        handle r = g ∧ flag r = false) ↔
      (∃ r ∈ l, handle r = g ∧ flag r = false) ∧ g ≠ h := by
  rw [exists_mem_map]
  constructor
  · intro ⟨r, mem, eq, out⟩
    split at eq
    · next same => rw [if_pos same, sets] at out; exact Bool.noConfusion out
    · next other => rw [if_neg other] at out; exact ⟨⟨r, mem, eq, out⟩, eq ▸ other⟩
  · intro ⟨⟨r, mem, eq, out⟩, ne⟩
    have other : handle r ≠ h := eq ▸ ne
    exact ⟨r, mem, by rw [if_neg other]; exact eq, by rw [if_neg other]; exact out⟩

theorem exists_kept (keeps : ∀ r, handle (mark r) = handle r) (same : ∀ r, flag (mark r) = flag r) :
    (∃ r ∈ l.map (fun r => if handle r = h then mark r else r),
        handle r = g ∧ flag r = false) ↔ ∃ r ∈ l, handle r = g ∧ flag r = false := by
  rw [exists_mem_map]
  refine exists_congr fun r => and_congr_right fun _ => ?_
  split
  · rw [keeps, same]
  · exact Iff.rfl

theorem tiles_marked {start size : T → Int} [DecidablePred c] (h : Tiles start size a l b)
    (hs : ∀ r, start (mark r) = start r) (hz : ∀ r, size (mark r) = size r) :
    Tiles start size a (l.map fun r => if c r then mark r else r) b := by
  refine h.map (fun r => ?_) fun r => ?_
  · split
    · exact hs r
    · rfl
  · split
    · exact hz r
    · rfl

theorem exists_concat (new : flag n = false) :
    (∃ r ∈ l ++ [n], handle r = g ∧ flag r = false) ↔
      g = handle n ∨ ∃ r ∈ l, handle r = g ∧ flag r = false := by
  constructor
  · intro ⟨r, mem, eq, out⟩
    cases mem_append.mp mem with
    | inl old => exact .inr ⟨r, old, eq, out⟩
    | inr last => exact .inl (mem_singleton.mp last ▸ eq.symm)
  · intro h
    cases h with
    | inl eq => exact ⟨n, mem_append_right l mem_cons_self, eq.symm, new⟩
    | inr old =>
      obtain ⟨r, mem, rest⟩ := old
      exact ⟨r, mem_append_left [n] mem, rest⟩

section Steps
variable {start : Int} {s : RingSession}

theorem Valid.order (v : s.Valid start) :
    s.ring.rt ≤ s.ring.rf ∧ s.ring.rf ≤ s.ring.wt ∧ s.ring.wt ≤ s.ring.wf :=
  ⟨v.readers.isMark.le, v.rf_le_wt, v.writers.isMark.le⟩

theorem Valid.wt_le (v : s.Valid start) (mem : r ∈ s.reserved) (writing : r.written = false) :
    s.ring.wt ≤ r.off :=
  v.writers.isMark.low r.off ⟨r.handle, ⟨r, mem, rfl, writing⟩, rfl⟩

theorem Valid.effectiveRt_le_wf (v : s.Valid start) : s.ring.effectiveRt ≤ s.ring.wf := by
  have := Ringbuffer.effectiveRt_le s.ring
  have := v.order
  omega

theorem room_mono {r r' : Ringbuffer} (room : wf - r.effectiveRt ≤ mask) (rt : r.rt ≤ r'.rt)
    (rwt : r.rwt ≤ r'.rwt) : wf - r'.effectiveRt ≤ mask := by
  rw [Ringbuffer.effectiveRt_eq] at room ⊢
  omega

/-- The call returns. -/
def Returns (start : Int) (s : RingSession) (op : RingOp) : Prop :=
  ∃ s', op.run s = .ok s' ∧ s'.Valid start ∧ op.Effect s s'

section
variable (v : s.Valid start)
include v

variable {op : RingOp}

theorem reserveSpace_step (pos : 1 ≤ sz) :
    Returns start s (.reserveSpace thread ptr sz) ∨
      (RingOp.reserveSpace thread ptr sz).run s = .error .waits := by
  have order := v.order
  have first := v.reserved.le
  have nonneg := v.nonneg
  have spec := Ringbuffer.reserveSpace_spec v.effectiveRt_le_wf v.room (by omega) thread ptr sz
  by_cases fits : s.ring.wf + sz - s.ring.effectiveRt ≤ s.ring.mask
  · rw [if_pos fits] at spec
    have run : (RingOp.reserveSpace thread ptr sz).run s = .ok _ :=
      (congrArg (· >>= _) spec).trans rfl
    have advance : s.ring.wf < s.ring.wf + sz := by omega
    exact .inl ⟨_, run, { v with
      writers := v.writers.take thread rfl advance fun h => exists_concat rfl
      appliers := v.appliers.take thread rfl advance fun h => exists_concat rfl
      reserved := v.reserved.concat rfl (lt_of_lt_of_le Int.zero_lt_one pos)
      room := fits }, fits, _, _, rfl⟩
  · rw [if_neg fits] at spec
    refine .inr ?_
    simp only [RingOp.run, spec, bind, Except.bind]

theorem writeDone_step (held : s.Writing h) : Returns start s (.writeDone thread h) := by
  have given : ∀ g, (∃ r ∈ s.markWritten h, r.handle = g ∧ r.written = false) ↔
      s.Writing g ∧ g ≠ h := fun g => exists_marked fun _ => rfl
  obtain ⟨min', wt', run, tracks, up⟩ := Ringbuffer.writeDone_spec thread held given v.writers
  refine ⟨_, (congrArg (· >>= _) run).trans rfl, ?_, _, _, up, rfl⟩
  exact { v with
    writers := tracks
    appliers := v.appliers.congr fun g => exists_kept (fun _ => rfl) fun _ => rfl
    reserved := tiles_marked v.reserved (fun _ => rfl) fun _ => rfl
    rf_le_wt := le_trans v.rf_le_wt up }

theorem readingWriterDone_step (held : s.Applying h) :
    Returns start s (.readingWriterDone thread h) := by
  have given : ∀ g, (∃ r ∈ s.markApplied h, r.handle = g ∧ r.applied = false) ↔
      s.Applying g ∧ g ≠ h := fun g => exists_marked fun _ => rfl
  obtain ⟨min', rwt', run, tracks, up⟩ :=
    Ringbuffer.readingWriterDone_spec thread held given v.appliers
  refine ⟨_, (congrArg (· >>= _) run).trans rfl, ?_, _, _, up, rfl⟩
  exact { v with
    writers := v.writers.congr fun g => exists_kept (fun _ => rfl) fun _ => rfl
    appliers := tracks
    reserved := tiles_marked v.reserved (fun _ => rfl) fun _ => rfl
    room := room_mono v.room le_rfl up }

theorem consumeBytes_step (ask : sz = ringNext ∨ 0 < sz) :
    Returns start s (.consumeBytes thread ptr sz) ∨
      (RingOp.consumeBytes thread ptr sz).run s = .error .waits := by
  have order := v.order
  have first := v.consumed.le
  have nonneg := v.nonneg
  have spec := Ringbuffer.consumeBytes_spec order.1 order.2.1 (by omega) v.opened ask thread ptr
  by_cases some : 0 < s.ring.batchSize sz ∧ s.ring.rf + s.ring.batchSize sz ≤ s.ring.wt
  · rw [if_pos some] at spec
    have run : (RingOp.consumeBytes thread ptr sz).run s = .ok _ :=
      (congrArg (· >>= _) spec).trans rfl
    have advance : s.ring.rf < s.ring.rf + s.ring.batchSize sz := by omega
    exact .inl ⟨_, run, { v with
      readers := v.readers.take thread rfl advance fun h => exists_concat rfl
      consumed := v.consumed.concat rfl some.1
      rf_le_wt := some.2 }, some.1, some.2, _, rfl⟩
  · rw [if_neg some] at spec
    refine .inr ?_
    simp only [RingOp.run, spec, bind, Except.bind]

theorem readDone_step (held : s.Reading h) : Returns start s (.readDone thread h) := by
  have given : ∀ g, (∃ b ∈ s.markFinished h, b.handle = g ∧ b.finished = false) ↔
      s.Reading g ∧ g ≠ h := fun g => exists_marked fun _ => rfl
  obtain ⟨min', rt', run, tracks, up⟩ := Ringbuffer.readDone_spec thread held given v.readers
  refine ⟨_, (congrArg (· >>= _) run).trans rfl, ?_, _, _, up, rfl⟩
  exact { v with
    readers := tracks
    consumed := tiles_marked v.consumed (fun _ => rfl) fun _ => rfl
    room := room_mono v.room up le_rfl }

theorem requestFlush_step (off : Int) : Returns start s (.requestFlush off) := by
  refine ⟨_, rfl, ?_, rfl⟩
  rw [Ringbuffer.requestFlush]
  split
  · exact { v with }
  · exact v

theorem run_valid (sound : op.Sound s) : Returns start s op ∨ op.run s = .error .waits := by
  cases op with
  | reserveSpace thread ptr sz => exact reserveSpace_step v sound
  | writeDone thread h => exact .inl (writeDone_step v sound)
  | readingWriterDone thread h => exact .inl (readingWriterDone_step v sound)
  | consumeBytes thread ptr sz => exact consumeBytes_step v sound
  | readDone thread h => exact .inl (readDone_step v sound)
  | requestFlush off => exact .inl (requestFlush_step v off)

theorem run_ok (sound : op.Sound s) {s' : RingSession} (h : op.run s = .ok s') :
    s'.Valid start ∧ op.Effect s s' := by
  cases run_valid v sound with
  | inl next =>
    obtain ⟨s1, run, valid, effect⟩ := next
    exact Except.ok.inj (h.symm.trans run) ▸ ⟨valid, effect⟩
  | inr waits => exact absurd (h.symm.trans waits) (by simp)

end

end Steps

/-- The sessions that calls lead to, from a ring of `2 ^ base` bytes at `start`. -/
inductive Reached (base start : Nat) : RingSession → Prop
  | init : Reached base start (init base start)
  | call {s s' : RingSession} (before : Reached base start s) (op : RingOp)
      (allowed : op.Allowed s) (run : op.run s = .ok s') : Reached base start s'

theorem reached_valid (h : Reached base start s) : s.Valid start := by
  induction h with
  | init => exact init_valid base start
  | call _ op allowed run ih =>
    exact (run_ok ih allowed.sound run).1

/-- What holds of a ring at every moment. -/
structure Safe (start : Int) (s : RingSession) : Prop where
  order : s.ring.rt ≤ s.ring.rf ∧ s.ring.rf ≤ s.ring.wt ∧ s.ring.wt ≤ s.ring.wf
  room : s.ring.wf - min s.ring.rt s.ring.rwt ≤ s.ring.mask
  disjoint : s.consumed.Pairwise fun a b => a.off + a.size ≤ b.off
  cover : ∀ x, start ≤ x ∧ x < s.ring.rf ↔ ∃ b ∈ s.consumed, b.off ≤ x ∧ x < b.off + b.size
  written : ∀ b ∈ s.consumed, ∀ r ∈ s.reserved,
    r.off < b.off + b.size → b.off < r.off + r.size → r.written = true
  distinct : ∀ x y, min s.ring.rt s.ring.rwt ≤ x → x < s.ring.wf →
    min s.ring.rt s.ring.rwt ≤ y → y < s.ring.wf → s.ring.ptrOff x = s.ring.ptrOff y → x = y

theorem Valid.safe {start : Int} (v : s.Valid start) : s.Safe start := by
  have room := v.room
  rw [Ringbuffer.effectiveRt_eq] at room
  refine ⟨v.order, room, v.consumed.ordered, fun x => v.consumed.covers, ?_, ?_⟩
  · intro b hb r hr before after
    refine Bool.eq_true_of_not_eq_false fun writing => ?_
    have low := v.wt_le hr writing
    have high := (v.consumed.bounds hb).2.2
    have := v.rf_le_wt
    omega
  · intro x y lowX highX lowY highY eq
    have divides : s.ring.mask + 1 ∣ x - y :=
      Int.dvd_of_emod_eq_zero (Int.emod_eq_emod_iff_emod_sub_eq_zero.mp eq)
    have apart : x - y = 0 := Int.eq_zero_of_dvd_of_natAbs_lt_natAbs divides (by omega)
    omega

theorem ring_safe {base start : Nat} {s : RingSession} (h : Reached base start s) :
    s.Safe start ∧ ∀ op : RingOp, op.Allowed s → op.run s ≠ .error .fails := by
  refine ⟨(reached_valid h).safe, fun op allowed fails => ?_⟩
  cases run_valid (reached_valid h) allowed.sound with
  | inl next =>
    obtain ⟨s', run, _⟩ := next
    exact absurd (run.symm.trans fails) (by simp)
  | inr waits => exact absurd (waits.symm.trans fails) (by simp)

/-- A call by a client that keeps to the rules. -/
def callAllowed (s : RingSession) (op : RingOp) : Except Stop RingSession :=
  if op.Allowed s then op.run s else .error .fails

theorem Reached.calls {ops : List RingOp} (h : Reached base start s)
    (run : ops.foldlM callAllowed s = .ok s') : Reached base start s' :=
  Fallible.foldlM_guarded h (fun _ op _ h allowed => h.call op allowed) run

/-- Two writers that finish in the other order, and a reader that gets both ranges. -/
theorem ring_safe_two_writers :
    ∃ s, s.consumed.map (fun b => (b.off, b.size)) = [(1, 30)] ∧ s.Safe 1 ∧
      s.Reading ⟨3, 1⟩ ∧ (RingOp.readDone 3 ⟨3, 1⟩).run s ≠ .error .fails := by
  obtain ⟨s, run, consumed⟩ : ∃ s, [.reserveSpace 1 1 10, .reserveSpace 2 2 20, .writeDone 2 ⟨2, 11⟩,
      .writeDone 1 ⟨1, 1⟩, .consumeBytes 3 3 ringNext].foldlM callAllowed (init 12 1) = .ok s ∧
        s.consumed = [⟨⟨3, 1⟩, 30, false⟩] := by
    decide +kernel
  have reached : Reached 12 1 s := Reached.init.calls run
  have reading : s.Reading ⟨3, 1⟩ := ⟨_, by rw [consumed]; exact mem_cons_self, rfl, rfl⟩
  have safe := ring_safe reached
  exact ⟨s, by rw [consumed]; rfl, safe.1, reading, safe.2 (.readDone 3 ⟨3, 1⟩) reading⟩

end RingSession
end Stasis
