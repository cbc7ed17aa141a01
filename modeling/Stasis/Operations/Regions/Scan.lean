import Stasis.Library.Fallible
import Stasis.Operations.Regions.Chain

/-!
The search for a region.

On a page file with a chain of regions no assertion fails: each step of
consolidateRegions and of the loop of TregionAlloc gives the page file of a list in which
free regions are merged. The loop ends because every turn leaves fewer regions behind
the one it stands at, also when that one was merged into its predecessor.
-/
namespace Stasis.Regions
open BoundaryTags TransactionTable Fallible Function List World

/-- The transaction has not logged anything, or its first entry is in the log. -/
def World.Begun (w : World) (x : Int) : Prop :=
  (w.tbl x).prevLSN = invalidLsn ∧ (w.tbl x).recLSN = invalidLsn ∨
    0 ≤ (w.tbl x).prevLSN ∧ 0 ≤ (w.tbl x).recLSN ∧ (w.tbl x).recLSN < w.nextLSN

/-- The fingerprint of no transaction, or of one that has begun. -/
def World.Known (w : World) (fp : Fingerprint) : Prop :=
  fp.xid < 0 ∨ 0 ≤ fp.recLsn ∧ fp.recLsn < w.nextLSN

/-- The transaction can log an entry. -/
structure World.Live (w : World) (xid : Int) : Prop where
  active : w.tbl.IsActive xid
  begun : w.Begun xid
  clock : 0 ≤ w.nextLSN

/-- The log of `w'` has more entries of the transaction. -/
structure Logs (xid : Int) (w w' : World) : Prop where
  undo : w'.undo = w.undo
  aborting : w'.aborting = w.aborting
  later : w.nextLSN ≤ w'.nextLSN
  others : ∀ x, x ≠ xid → w'.tbl x = w.tbl x
  slot : (w'.tbl xid).xid = (w.tbl xid).xid ∧ (w'.tbl xid).xidWhenFree = (w.tbl xid).xidWhenFree
  begun : w'.Begun xid
  kept : (w.tbl xid).recLSN ≠ invalidLsn → (w'.tbl xid).recLSN = (w.tbl xid).recLSN
  fresh : (w.tbl xid).recLSN = invalidLsn → (w'.tbl xid).recLSN = invalidLsn ∨
    w.nextLSN ≤ (w'.tbl xid).recLSN

namespace Logs

theorem refl (live : w.Live xid) : Logs xid w w :=
  ⟨rfl, rfl, le_rfl, fun _ _ => rfl, ⟨rfl, rfl⟩, live.begun, fun _ => rfl, fun eq => .inl eq⟩

theorem trans (h : Logs xid w w') (h' : Logs xid w' w'') : Logs xid w w'' := by
  refine ⟨h'.undo.trans h.undo, h'.aborting.trans h.aborting, le_trans h.later h'.later,
    fun x ne => (h'.others x ne).trans (h.others x ne),
    ⟨h'.slot.1.trans h.slot.1, h'.slot.2.trans h.slot.2⟩, h'.begun, fun ne => ?_, fun eq => ?_⟩
  · have first := h.kept ne
    exact (h'.kept (first.symm ▸ ne)).trans first
  · by_cases same : (w'.tbl xid).recLSN = invalidLsn
    · exact (h'.fresh same).imp id fun low => le_trans h.later low
    · have low := (h.fresh eq).resolve_left same
      rw [h'.kept same]
      exact .inr low

theorem update (live : w.Live xid) (tags : Int → Option BoundaryTag) :
    Logs xid w { w.logUpdate xid with tags := tags } := by
  have begun := live.begun
  have clock := live.clock
  have entry : (w.logUpdate xid).tbl xid = { w.tbl xid with
      recLSN := if (w.tbl xid).prevLSN = invalidLsn then w.nextLSN else (w.tbl xid).recLSN
      prevLSN := w.nextLSN } := set_self ..
  have first : (w.tbl xid).prevLSN = invalidLsn ↔ (w.tbl xid).recLSN = invalidLsn := by
    simp only [World.Begun, invalidLsn] at begun ⊢
    omega
  refine ⟨rfl, rfl, le_of_lt (Int.lt_succ _), fun x ne => set_of_ne _ _ ne, ?_, .inr ?_,
    fun ne => ?_, fun eq => ?_⟩
  · show ((w.logUpdate xid).tbl xid).xid = _ ∧ ((w.logUpdate xid).tbl xid).xidWhenFree = _
    rw [entry]
    exact ⟨rfl, rfl⟩
  · show 0 ≤ ((w.logUpdate xid).tbl xid).prevLSN ∧ 0 ≤ ((w.logUpdate xid).tbl xid).recLSN ∧
      ((w.logUpdate xid).tbl xid).recLSN < w.nextLSN + 1
    rw [entry]
    simp only
    by_cases new : (w.tbl xid).prevLSN = invalidLsn
    · rw [if_pos new]
      omega
    · rw [if_neg new]
      have old := begun.resolve_left fun none => new none.1
      omega
  · show ((w.logUpdate xid).tbl xid).recLSN = _
    rw [entry]
    exact if_neg fun new => ne (first.mp new)
  · show _ ∨ w.nextLSN ≤ ((w.logUpdate xid).tbl xid).recLSN
    rw [entry]
    simp only [if_pos (first.mpr eq)]
    exact .inr le_rfl

theorem isActive (h : Logs xid w w') (x : Int) : w'.tbl.IsActive x ↔ w.tbl.IsActive x := by
  by_cases eq : x = xid
  · rw [eq, IsActive, IsActive, h.slot.1]
  · rw [IsActive, IsActive, h.others x eq]

theorem active (h : Logs xid w w') (known : w.Known fp) :
    w'.tisActiveTransaction fp = w.tisActiveTransaction fp := by
  rw [tisActiveTransaction, tisActiveTransaction, decide_eq_decide, h.isActive]
  refine and_congr_right fun active => ?_
  have recLsn := known.resolve_left (not_lt.mpr active.1)
  by_cases eq : fp.xid = xid
  · rw [eq]
    by_cases same : (w.tbl xid).recLSN = invalidLsn
    · have fresh := h.fresh same
      simp only [invalidLsn] at same fresh
      exact ⟨fun found => by omega, fun found => by omega⟩
    · rw [h.kept same]
  · rw [h.others fp.xid eq]

theorem live (h : Logs xid w w') (live : w.Live xid) : w'.Live xid :=
  ⟨(h.isActive xid).mpr live.active, h.begun, le_trans live.clock h.later⟩

end Logs

section Tags
variable {w : World}

theorem assert_ok {b : Prop} [Decidable b] (h : b) : assert b = .ok () := if_pos h

theorem readBoundaryTag_ok (held : w.tags page = some t) (ok : PrevOk page t.prevSize) :
    w.readBoundaryTag page = .ok (some t) := by
  rw [readBoundaryTag, held]
  simp only [assert_ok ok.read]
  rfl

theorem expectBoundaryTag_ok (held : w.tags page = some t) (ok : PrevOk page t.prevSize) :
    w.expectBoundaryTag page = .ok t := by
  rw [expectBoundaryTag, readBoundaryTag_ok held ok]
  rfl

theorem tsetBoundaryTag_ok (tag : BoundaryTag) (live : w.Live xid) (held : w.tags page = some t)
    (old : PrevOk page t.prevSize) (ok : PrevOk page tag.prevSize) :
    ∃ after, w.tsetBoundaryTag xid page tag = .ok after ∧
      after.tags = update w.tags page (some tag) ∧ Logs xid w after := by
  refine ⟨w.tupdate xid page tag, ?_, rfl, .update live _⟩
  have ok : page = 0 ∧ tag.prevSize = pageidMax ∨ page ≠ 0 ∧ tag.prevSize < pageidMax / 2 := ok
  rw [tsetBoundaryTag, assert_ok ok, expectBoundaryTag_ok held old]
  rfl

theorem tgetTransactionFingerprint_ok (live : w.Live xid) :
    ∃ after, w.tgetTransactionFingerprint xid = .ok (after, ⟨xid, (after.tbl xid).recLSN⟩) ∧
      after.tags = w.tags ∧ Logs xid w after ∧ 0 ≤ (after.tbl xid).recLSN := by
  rw [tgetTransactionFingerprint, if_pos live.active]
  by_cases none : (w.tbl xid).recLSN = invalidLsn
  · have logs : Logs xid w (w.logUpdate xid) := .update live w.tags
    refine ⟨w.logUpdate xid, by simp only [if_pos none], rfl, logs, ?_⟩
    have fresh := logs.fresh none
    have begun := logs.begun
    have clock := live.clock
    have stamped : ((w.logUpdate xid).tbl xid).prevLSN = w.nextLSN :=
      congrArg TransactionTableEntry.prevLSN (set_self ..)
    simp only [World.Begun, invalidLsn] at begun fresh
    omega
  · refine ⟨w, by simp only [if_neg none], rfl, .refl live, ?_⟩
    exact (live.begun.resolve_left fun new => none new.2).2.1

theorem tdeallocBoundaryTag_ok (live : w.Live xid) (held : w.tags page = some t)
    (ok : PrevOk page t.prevSize) :
    ∃ after gone, w.tdeallocBoundaryTag xid page = .ok after ∧
      after.tags = update w.tags page (some gone) ∧ Orphan page gone ∧
        Logs xid w after := by
  obtain ⟨mid, call, tags, logs, _⟩ := tgetTransactionFingerprint_ok live
  obtain ⟨after, set, written, more⟩ := tsetBoundaryTag_ok
    { t with status := .condemned, regionXidFp := ⟨xid, (mid.tbl xid).recLSN⟩ }
    (logs.live live) (tags ▸ held) ok ok
  rw [tags] at written
  refine ⟨after, _, ?_, written, ⟨rfl, ok⟩, logs.trans more⟩
  rw [tdeallocBoundaryTag, expectBoundaryTag_ok held ok]
  show (w.tgetTransactionFingerprint xid >>= _) = _
  rw [call]
  exact set

end Tags

/-- A call of the transaction `xid` that began at `start` has come to `w`. -/
structure Scan (start : World) (xid : Int) (w : World) (l : List Region) : Prop where
  logs : Logs xid start w
  chain : Chain w.tags l
  known : ∀ r ∈ l, start.Known r.regionXidFp
  last : ∀ r ∈ l, r.size = pageidMax → Free start.tisActiveTransaction r

namespace Scan
variable {start w : World} {xid : Int} {left right : List Region} {r : Region} {after : World}

theorem active (h : Scan start xid w l) (mem : r ∈ l) :
    w.tisActiveTransaction r.regionXidFp = start.tisActiveTransaction r.regionXidFp :=
  h.logs.active (h.known r mem)

theorem expect (h : Scan start xid w (left ++ r :: right)) (place : page = regionSpan left) :
    w.expectBoundaryTag page = .ok (r.tag (sizeInFront left)) := by
  rw [place]
  exact expectBoundaryTag_ok h.chain.held h.chain.prevOk

/-- After the first part of consolidateRegions the tag of the region may be out of date. -/
structure Unwritten (start : World) (xid : Int) (w : World) (left : List Region) (r : Region)
    (right : List Region) (must : Bool) : Prop where
  logs : Logs xid start w
  chain : Chain (update w.tags (regionSpan left) (some (r.tag (sizeInFront left))))
    (left ++ r :: right)
  held : ∃ old, w.tags (regionSpan left) = some old ∧ old.prevSize = sizeInFront left
  written : must = false → w.tags (regionSpan left) = some (r.tag (sizeInFront left))

theorem unwritten (h : Scan start xid w (left ++ r :: right)) :
    Unwritten start xid w left r right false := by
  refine ⟨h.logs, ?_, ⟨_, h.chain.held, rfl⟩, fun _ => h.chain.held⟩
  rw [Function.update_eq_self_iff.mpr h.chain.held.symm]
  exact h.chain

theorem unwritten_join (h : Scan start xid w (left ++ r :: s :: right))
    (logs : Logs xid start after) (orphan : Orphan (regionSpan left + (r.size + 1)) gone)
    (at_gone : after.tags (regionSpan left + (r.size + 1)) = some gone)
    (next : ∀ n rest, right = n :: rest →
      after.tags (regionSpan left + (r.size + 1) + (s.size + 1)) = some (n.tag (r.join s).size))
    (others : ∀ q, q ≠ regionSpan left + (r.size + 1) → (right ≠ [] →
      q ≠ regionSpan left + (r.size + 1) + (s.size + 1)) → after.tags q = w.tags q) :
    Unwritten start xid after left (r.join s) right true := by
  have size := h.chain.nonneg r (by simp)
  have size' := h.chain.nonneg s (by simp)
  refine ⟨logs, ?_, ⟨r.tag (sizeInFront left), ?_, rfl⟩, fun no => by cases no⟩
  · refine h.chain.join (update_self ..) ⟨gone, ?_, orphan⟩ (fun n rest eq => ?_)
      (fun q first second third => ?_)
    · rw [update_of_ne (by omega), at_gone]
    · rw [update_of_ne (by omega), next n rest eq]
    · rw [update_of_ne first, others q second third]
  · rw [others _ (by omega) fun _ => by omega]
    exact h.chain.held

theorem mergeSuccessor_eof (live : w.Live xid) (h : Scan start xid w (left ++ r :: s :: right))
    (free : Free start.tisActiveTransaction s) (last : s.size = pageidMax) :
    ∃ after, w.mergeSuccessor xid (regionSpan left) (r.tag (sizeInFront left)) =
        .ok (after, (r.join s).tag (sizeInFront left), true) ∧
      Unwritten start xid after left (r.join s) right true := by
  have closed := h.chain.closed
  have more : r.size ≠ pageidMax := fun eq => cons_ne_nil s right (closed.last_iff.mp eq)
  have place : regionSpan left + 1 + r.size = regionSpan left + (r.size + 1) := by omega
  have there := h.chain.next
  have ok := h.chain.prevOk_next
  rw [← place] at there ok
  obtain ⟨after, gone, dealloc, tags, orphan, logs⟩ := tdeallocBoundaryTag_ok live there ok
  have eof : right = [] := by
    rw [append_cons] at closed
    exact closed.last_iff.mp last
  have join : (r.join s).tag (sizeInFront left) =
      { r.tag (sizeInFront left) with size := pageidMax } := by
    rw [Region.join, if_pos last]
    rfl
  refine ⟨after, ?_, ?_⟩
  · rw [join, mergeSuccessor]
    refine (if_pos more).trans (bind_ok (expectBoundaryTag_ok there ok) ?_)
    refine (if_pos last).trans (bind_ok (assert_ok free.1) ?_)
    exact bind_ok dealloc rfl
  · rw [place] at tags orphan
    refine h.unwritten_join (h.logs.trans logs) orphan ?_ (fun n rest eq => ?_) (fun q ne _ => ?_)
    · rw [tags, update_self]
    · cases eof.symm.trans eq
    · rw [tags, update_of_ne ne]

theorem mergeSuccessor_inner (live : w.Live xid)
    (h : Scan start xid w (left ++ r :: s :: n :: right))
    (free : Free start.tisActiveTransaction s) (inner : s.size ≠ pageidMax) :
    ∃ after, w.mergeSuccessor xid (regionSpan left) (r.tag (sizeInFront left)) =
        .ok (after, (r.join s).tag (sizeInFront left), true) ∧
      Unwritten start xid after left (r.join s) (n :: right) true := by
  have closed := h.chain.closed
  have more : r.size ≠ pageidMax := fun eq => cons_ne_nil s _ (closed.last_iff.mp eq)
  have place : regionSpan left + 1 + r.size = regionSpan left + (r.size + 1) := by omega
  have place' : regionSpan left + 1 + r.size + s.size + 1 =
      regionSpan left + (r.size + 1) + (s.size + 1) := by omega
  have active := h.active (r := s) (by simp)
  have size : (r.join s).size = r.size + s.size + 1 := if_neg inner
  have there := h.chain.next
  have ok := h.chain.prevOk_next
  have nonneg := h.chain.nonneg r (by simp)
  have nonneg' := h.chain.nonneg s (by simp)
  have first := h.chain.span_low.1
  have chain := h.chain
  rw [append_cons] at chain
  have behind := chain.next
  have ok' := chain.prevOk_next
  have low := chain.next_low
  rw [Chain.span_concat, ← place'] at behind ok' low
  rw [← place] at there ok
  obtain ⟨mid, set, tags, logs⟩ :=
    tsetBoundaryTag_ok { n.tag s.size with prevSize := r.size + s.size + 1 } live behind ok'
      (.inr ⟨by omega, by simp only; omega⟩)
  have there' : mid.tags (regionSpan left + 1 + r.size) = some (s.tag r.size) := by
    rw [tags, update_of_ne (by omega), there]
  obtain ⟨after, gone, dealloc, tags', orphan, logs'⟩ :=
    tdeallocBoundaryTag_ok (logs.live live) there' ok
  have join : (r.join s).tag (sizeInFront left) =
      { r.tag (sizeInFront left) with size := r.size + s.size + 1 } := by
    rw [Region.join, if_neg inner]
    rfl
  refine ⟨after, ?_, ?_⟩
  · rw [join]
    have idle : ¬ w.tisActiveTransaction s.regionXidFp = true :=
      active ▸ Bool.eq_false_iff.mp free.2
    rw [mergeSuccessor]
    refine (if_pos more).trans (bind_ok (expectBoundaryTag_ok there ok) ?_)
    refine (if_neg inner).trans ((if_pos ⟨free.1, idle⟩).trans ?_)
    refine bind_ok (expectBoundaryTag_ok behind ok') (bind_ok set ?_)
    exact bind_ok dealloc rfl
  · rw [place] at tags' orphan
    rw [place'] at tags
    refine h.unwritten_join (h.logs.trans (logs.trans logs')) orphan ?_ (fun x rest eq => ?_)
      (fun q ne ne' => ?_)
    · rw [tags', update_self]
    · cases eq
      rw [tags', update_of_ne (by omega), tags, update_self, size]
      rfl
    · rw [tags', update_of_ne ne, tags,
        update_of_ne (ne' (cons_ne_nil n right))]

theorem mergeSuccessor_ok (live : start.Live xid) (h : Scan start xid w (left ++ r :: right))
    (free : Free start.tisActiveTransaction r) :
    ∃ after r' right' must, w.mergeSuccessor xid (regionSpan left) (r.tag (sizeInFront left)) =
        .ok (after, r'.tag (sizeInFront left), must) ∧
      Unwritten start xid after left r' right' must ∧
      Merges start.tisActiveTransaction (left ++ r :: right) (left ++ r' :: right') ∧
      Free start.tisActiveTransaction r' ∧ right'.length ≤ right.length := by
  have closed := h.chain.closed
  have live := h.logs.live live
  cases right with
  | nil =>
    have last : r.size = pageidMax := closed.last_iff.mpr rfl
    exact ⟨w, r, [], false, if_neg (not_not.mpr last), h.unwritten, .none, free, Nat.le_refl _⟩
  | cons s right =>
    by_cases last : s.size = pageidMax
    · have freeS := h.last s (by simp) last
      obtain ⟨after, ran, unwritten⟩ := h.mergeSuccessor_eof live freeS last
      exact ⟨after, _, _, _, ran, unwritten, .step .none closed free freeS, free, Nat.le_succ _⟩
    · have behind : right ≠ [] := fun eof => last (by
        rw [append_cons] at closed
        exact closed.last_iff.mpr eof)
      obtain ⟨n, right, rfl⟩ := exists_cons_of_ne_nil behind
      by_cases freeS : Free start.tisActiveTransaction s
      · obtain ⟨after, ran, unwritten⟩ := h.mergeSuccessor_inner live freeS last
        exact ⟨after, _, _, _, ran, unwritten, .step .none closed free freeS, free,
          Nat.le_succ _⟩
      · refine ⟨w, r, _, false, ?_, h.unwritten, .none, free, Nat.le_refl _⟩
        have more : r.size ≠ pageidMax :=
          fun eq => cons_ne_nil s _ (closed.last_iff.mp eq)
        have there := h
        rw [append_cons] at there
        rw [mergeSuccessor]
        refine (if_pos more).trans (bind_ok (there.expect ?_) ?_)
        · rw [Chain.span_concat]
          show regionSpan left + 1 + r.size = _
          omega
        · refine (if_neg last).trans (if_neg fun both => freeS ⟨both.1, ?_⟩)
          have active := h.active (r := s) (by simp)
          rw [← active]
          exact Bool.eq_false_iff.mpr both.2

namespace Unwritten

theorem write (live : start.Live xid) (h : Unwritten start xid w left r right must) :
    ∃ after, w.writeOriginalTag xid (regionSpan left) (r.tag (sizeInFront left)) must =
        .ok (after, regionSpan left, r.tag (sizeInFront left)) ∧
      Logs xid start after ∧ Chain after.tags (left ++ r :: right) := by
  cases must with
  | true =>
    obtain ⟨old, held, prev⟩ := h.held
    have ok := h.chain.prevOk
    obtain ⟨after, set, tags, logs⟩ := tsetBoundaryTag_ok (r.tag (sizeInFront left))
      (h.logs.live live) held (prev ▸ ok) ok
    refine ⟨after, ?_, h.logs.trans logs, tags ▸ h.chain⟩
    exact bind_ok set rfl
  | false =>
    have chain := h.chain
    rw [Function.update_eq_self_iff.mpr (h.written rfl).symm] at chain
    exact ⟨w, rfl, h.logs, chain⟩

/-- The region is merged into the one in front of it: its own tag is condemned, and the one
behind it is told. -/
theorem join (h : Unwritten start xid w (left ++ [p]) r right must)
    (orphan : Orphan (regionSpan (left ++ [p])) gone)
    (here : after.tags (regionSpan left) = some ((p.join r).tag (sizeInFront left)))
    (there : after.tags (regionSpan (left ++ [p])) = some gone)
    (next : ∀ n rest, right = n :: rest →
      after.tags (regionSpan (left ++ [p]) + (r.size + 1)) = some (n.tag (p.join r).size))
    (others : ∀ q, q ≠ regionSpan left → q ≠ regionSpan (left ++ [p]) →
      (right ≠ [] → q ≠ regionSpan (left ++ [p]) + (r.size + 1)) → after.tags q = w.tags q) :
    Chain after.tags (left ++ p.join r :: right) := by
  have chain := h.chain
  rw [← append_cons] at chain
  rw [Chain.span_concat] at there next others orphan chain
  refine chain.join here ⟨gone, there, orphan⟩ next fun q first second third => ?_
  rw [others q first second third, update_of_ne second]

end Unwritten

theorem joinPredecessor_ok {tags : Int → Option BoundaryTag} (live : w.Live xid)
    (chain : Chain tags (left ++ p :: r :: right))
    (behind : ∀ q, regionSpan left + (p.size + 1) < q → w.tags q = tags q) (prev : Int) :
    ∃ after, w.joinPredecessor xid (regionSpan left + (p.size + 1)) (regionSpan left)
        (r.tag p.size) (p.tag prev) = .ok (after, (p.join r).tag prev) ∧
      Logs xid w after ∧
      (∀ n rest, right = n :: rest →
        after.tags (regionSpan left + (p.size + 1) + (r.size + 1)) =
          some (n.tag (p.join r).size)) ∧
      ∀ q, (right ≠ [] → q ≠ regionSpan left + (p.size + 1) + (r.size + 1)) →
        after.tags q = w.tags q := by
  have closed := chain.closed
  have nonneg := chain.nonneg p (by simp)
  have nonneg' := chain.nonneg r (by simp)
  have first := chain.span_low.1
  rw [append_cons] at closed chain
  cases right with
  | nil =>
    have last : r.size = pageidMax := closed.last_iff.mpr rfl
    have join : (p.join r).tag prev = { p.tag prev with size := pageidMax } := by
      rw [Region.join, if_pos last]
      rfl
    refine ⟨w, ?_, .refl live, fun n rest eq => (by cases eq), fun _ _ => rfl⟩
    rw [join]
    exact if_pos last
  | cons n right =>
    have inner : r.size ≠ pageidMax := fun eq => cons_ne_nil n right (closed.last_iff.mp eq)
    have place : regionSpan left + (p.size + 1) + 1 + r.size =
        regionSpan left + (p.size + 1) + (r.size + 1) := by omega
    have size : (p.join r).size = p.size + (r.size + 1) := by
      rw [Region.join, if_neg inner]
      show p.size + r.size + 1 = _
      omega
    have join : (p.join r).tag prev = { p.tag prev with size := p.size + (r.size + 1) } := by
      rw [← size]
      rfl
    have there := chain.next
    have ok := chain.prevOk_next
    have low := chain.next_low
    rw [Chain.span_concat, ← place] at there ok low
    rw [← behind _ (by omega)] at there
    obtain ⟨after, set, tags, logs⟩ :=
      tsetBoundaryTag_ok { n.tag r.size with prevSize := p.size + (r.size + 1) } live there ok
        (.inr ⟨by omega, by simp only; omega⟩)
    rw [place] at tags
    refine ⟨after, ?_, logs, fun x rest eq => ?_, fun q ne => ?_⟩
    · rw [join, joinPredecessor]
      refine (if_neg inner).trans (bind_ok (assert_ok ?_)
        (bind_ok (expectBoundaryTag_ok there ok) (bind_ok set (bind_ok (assert_ok ?_) rfl))))
      · show regionSpan left + (p.size + (r.size + 1)) + 1 = _ + 1 + r.size
        omega
      · show _ + 1 + r.size - _ - 1 = p.size + (r.size + 1)
        omega
    · cases eq
      rw [tags, update_self, size]
      rfl
    · rw [tags, update_of_ne (ne (cons_ne_nil n right))]

namespace Unwritten

theorem mergePredecessor_into {p : Region} (live : start.Live xid)
    (h : Unwritten start xid w (left ++ [p]) r right must)
    (idle : ¬ w.tisActiveTransaction p.regionXidFp = true) (vacant : p.status = .vacant) :
    ∃ after, w.mergePredecessor xid (regionSpan (left ++ [p])) (r.tag (sizeInFront (left ++ [p])))
        must = .ok (after, regionSpan left, (p.join r).tag (sizeInFront left)) ∧
      Logs xid start after ∧ Chain after.tags (left ++ p.join r :: right) := by
  have chain := h.chain
  rw [← append_cons] at chain
  have closed := chain.closed
  have nonneg := chain.nonneg p (by simp)
  have more : p.size ≠ pageidMax := fun eq => cons_ne_nil r right (closed.last_iff.mp eq)
  have place : regionSpan (left ++ [p]) = regionSpan left + (p.size + 1) := Chain.span_concat
  have back : regionSpan (left ++ [p]) - 1 - p.size = regionSpan left := by omega
  have front : w.tags (regionSpan left) = some (p.tag (sizeInFront left)) := by
    rw [← chain.held, update_of_ne (by omega)]
  have ok := chain.prevOk
  obtain ⟨old, held, prev⟩ := h.held
  have oldOk : PrevOk (regionSpan (left ++ [p])) old.prevSize := by
    rw [prev, place, Chain.inFront_concat]
    exact chain.prevOk_next
  obtain ⟨mid, gone, dealloc, tags, orphan, logs⟩ :=
    tdeallocBoundaryTag_ok (h.logs.live live) held oldOk
  have logs := h.logs.trans logs
  obtain ⟨mid', join, logs', next, others⟩ := joinPredecessor_ok (logs.live live) chain
    (fun q lt => by rw [tags, update_of_ne (by omega), update_of_ne (by omega)])
    (sizeInFront left)
  have logs' := logs.trans logs'
  have front' : mid'.tags (regionSpan left) = some (p.tag (sizeInFront left)) := by
    have nonneg' := chain.nonneg r (by simp)
    rw [others _ fun _ => by omega, tags, update_of_ne (by omega), front]
  obtain ⟨after, set, tags', logs''⟩ :=
    tsetBoundaryTag_ok ((p.join r).tag (sizeInFront left)) (logs'.live live) front' ok ok
  refine ⟨after, ?_, logs'.trans logs'', h.join orphan ?_ ?_ (fun n rest eq => ?_)
    (fun q ne ne' ne'' => ?_)⟩
  · rw [Chain.inFront_concat]
    rw [mergePredecessor]
    refine (if_pos more).trans (bind_ok (back.symm ▸ expectBoundaryTag_ok front ok)
      ((if_pos ⟨vacant, idle⟩).trans ?_))
    refine bind_ok dealloc (bind_ok (back.symm ▸ place.symm ▸ join) ?_)
    refine bind_ok (back.symm ▸ set) (bind_ok (assert_ok ?_) ?_)
    · show _ - 1 - p.size < _
      omega
    · exact congrArg (fun page => Except.ok (after, page, _)) back
  · rw [tags', update_self]
  · have nonneg' := chain.nonneg r (by simp)
    rw [tags', update_of_ne (by omega), others _ fun _ => by omega, tags,
      update_self]
  · have nonneg' := chain.nonneg r (by simp)
    rw [tags', update_of_ne (by omega), place, next n rest eq]
  · rw [place] at ne''
    rw [tags', update_of_ne ne, others q ne'', tags, update_of_ne ne']

theorem mergePredecessor_ok (live : start.Live xid) (h : Unwritten start xid w left r right must)
    (free : Free start.tisActiveTransaction r) (known : ∀ r ∈ left, start.Known r.regionXidFp) :
    ∃ after left' r', w.mergePredecessor xid (regionSpan left) (r.tag (sizeInFront left)) must =
        .ok (after, regionSpan left', r'.tag (sizeInFront left')) ∧
      Logs xid start after ∧ Chain after.tags (left' ++ r' :: right) ∧
      Merges start.tisActiveTransaction (left ++ r :: right) (left' ++ r' :: right) := by
  obtain ⟨after, write, logs, chain⟩ := h.write live
  cases left using List.reverseRecOn with
  | nil => exact ⟨after, [], r, (if_neg (not_not.mpr rfl)).trans write, logs, chain, .none⟩
  | append_singleton left p =>
    have there := h.chain
    rw [← append_cons] at there
    have closed := there.closed
    have nonneg := there.nonneg p (by simp)
    have active := h.logs.active (known p (by simp))
    by_cases freeP : p.status = .vacant ∧ ¬ w.tisActiveTransaction p.regionXidFp
    · obtain ⟨after, ran, logs, chain⟩ := h.mergePredecessor_into live freeP.2 freeP.1
      refine ⟨after, left, p.join r, ran, logs, chain, ?_⟩
      rw [← append_cons]
      refine .step .none closed ⟨freeP.1, ?_⟩ free
      rw [← active]
      exact Bool.eq_false_iff.mpr freeP.2
    · refine ⟨after, left ++ [p], r, ?_, logs, chain, .none⟩
      have place : regionSpan (left ++ [p]) = regionSpan left + (p.size + 1) := Chain.span_concat
      have front : w.tags (regionSpan left) = some (p.tag (sizeInFront left)) := by
        rw [← there.held, update_of_ne (by omega)]
      have more : p.size ≠ pageidMax :=
        fun eq => cons_ne_nil r right (closed.last_iff.mp eq)
      have back : regionSpan (left ++ [p]) - 1 - p.size = regionSpan left := by omega
      rw [← write, Chain.inFront_concat]
      have read := expectBoundaryTag_ok front there.prevOk
      rw [← back] at read
      rw [mergePredecessor]
      exact (if_pos more).trans ((congrArg (· >>= _) read).trans (if_neg freeP))

end Unwritten

theorem free_iff (h : Scan start xid w l) (mem : r ∈ l) : Free start.tisActiveTransaction r ↔
    ¬ (r.status ≠ .vacant ∨ w.tisActiveTransaction r.regionXidFp = true) := by
  rw [h.active mem, not_or, not_not, Bool.not_eq_true]
  exact Iff.rfl

theorem consolidateRegions_ok (live : start.Live xid)
    (h : Scan start xid w (left ++ r :: right)) :
    ∃ after left' r' right',
      w.consolidateRegions xid (regionSpan left) (r.tag (sizeInFront left)) =
        .ok (after, regionSpan left', r'.tag (sizeInFront left')) ∧
      Scan start xid after (left' ++ r' :: right') ∧
      Merges start.tisActiveTransaction (left ++ r :: right) (left' ++ r' :: right') ∧
      right'.length ≤ right.length := by
  have free_iff := h.free_iff (r := r) (by simp)
  by_cases busy : r.status ≠ .vacant ∨ w.tisActiveTransaction r.regionXidFp = true
  · refine ⟨w, left, r, right, ?_, h, .none, Nat.le_refl _⟩
    rw [consolidateRegions]
    exact if_pos busy
  · obtain ⟨mid, r', right', must, first, unwritten, merges, free, shorter⟩ :=
      h.mergeSuccessor_ok live (free_iff.mpr busy)
    have known : ∀ x ∈ left, start.Known x.regionXidFp := fun x mem => h.known x (by simp [mem])
    obtain ⟨after, left', r'', second, logs, chain, more⟩ :=
      unwritten.mergePredecessor_ok live free known
    have merges := merges.trans more
    refine ⟨after, left', r'', right', ?_, ⟨logs, chain,
      merges.all (fun _ _ _ known => known) h.known,
      merges.all (fun _ _ free _ _ => join_free free) h.last⟩, merges, shorter⟩
    rw [consolidateRegions]
    exact (if_neg busy).trans (bind_ok first second)

theorem firstFit_ok (turns : Nat) (pageCount : Int) (live : start.Live xid)
    (h : Scan start xid w (left ++ r :: right)) (enough : right.length < turns)
    (fits : pageCount ≤ pageidMax) :
    ∃ after left' r' right',
      World.firstFit turns w xid pageCount (regionSpan left) (r.tag (sizeInFront left)) =
        .ok (after, regionSpan left') ∧
      Scan start xid after (left' ++ r' :: right') ∧
      Merges start.tisActiveTransaction (left ++ r :: right) (left' ++ r' :: right') ∧
      Free start.tisActiveTransaction r' ∧ pageCount ≤ r'.size := by
  induction turns generalizing w left r right with
  | zero => exact absurd enough (Nat.not_lt_zero _)
  | succ turns ih =>
    have free_iff := h.free_iff (r := r) (by simp)
    by_cases more : r.status ≠ .vacant ∨ r.size < pageCount ∨
        w.tisActiveTransaction r.regionXidFp = true
    · have behind : right ≠ [] := by
        intro none
        have last : r.size = pageidMax := h.chain.closed.last_iff.mpr none
        have free := free_iff.mp (h.last r (by simp) last)
        rcases more with status | small | active
        · exact free (.inl status)
        · omega
        · exact free (.inr active)
      obtain ⟨s, right, rfl⟩ := exists_cons_of_ne_nil behind
      have ahead := h
      rw [append_cons] at ahead
      obtain ⟨mid, left', r', right', step, scan, merges, shorter⟩ :=
        ahead.consolidateRegions_ok live
      rw [← append_cons] at merges
      rw [length_cons] at enough
      obtain ⟨after, left'', r'', right'', rest, found⟩ := ih scan (by omega)
      refine ⟨after, left'', r'', right'', ?_, found.1, merges.trans found.2.1, found.2.2⟩
      have read : w.expectBoundaryTag (regionSpan left + (r.size + 1)) =
          .ok (s.tag (sizeInFront (left ++ [r]))) := ahead.expect Chain.span_concat.symm
      rw [Chain.span_concat] at step
      exact (if_pos more).trans (bind_ok read (bind_ok step rest))
    · have free : Free start.tisActiveTransaction r :=
        free_iff.mpr fun busy => more (busy.imp id .inr)
      have large : pageCount ≤ r.size := not_lt.mp fun small => more (.inr (.inl small))
      exact ⟨w, left, r, right, if_neg more, h, .none, free, large⟩

end Scan

end Stasis.Regions
