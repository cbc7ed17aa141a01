import Stasis.Operations.Regions.Scan

/-!
The calls on a chain of regions.

TregionAlloc merges free regions and then takes the pages at the start of one of them,
TregionDealloc makes a region vacant, and an undo changes the status of a region back.
Each of them succeeds, and leaves the page file of the new list.
-/
namespace Stasis.Regions
open BoundaryTags TransactionTable Fallible Function
variable {w : World} {xid : Int} {r : Region}

/-- The region behind the pages that are allocated. -/
def rest (r : Region) (pageCount : Int) : Region :=
  ⟨if r.size = pageidMax then pageidMax else r.size - pageCount - 1, .vacant, .invalid, 0⟩

/-- The pages that are allocated. -/
def zone (w : World) (xid pageCount allocationManager : Int) : Region :=
  ⟨pageCount, .zoned, ⟨xid, (w.tbl xid).recLSN⟩, allocationManager⟩

variable {pageCount : Int}

theorem splitRegion_ok (live : w.Live xid) (chain : Chain w.tags (left ++ r :: right))
    (nonneg : 0 ≤ pageCount) (less : pageCount < r.size) (prev : Int) :
    ∃ after, w.splitRegion xid (regionSpan left) pageCount (r.tag prev) = .ok after ∧
      Logs xid w after ∧
      after.tags (regionSpan left + (pageCount + 1)) = some ((rest r pageCount).tag pageCount) ∧
      (∀ s more, right = s :: more →
        after.tags (regionSpan left + (r.size + 1)) = some (s.tag (rest r pageCount).size)) ∧
      ∀ q, q ≠ regionSpan left + (pageCount + 1) →
        (right ≠ [] → q ≠ regionSpan left + (r.size + 1)) → after.tags q = w.tags q := by
  have closed := chain.closed
  have place : regionSpan left + pageCount + 1 = regionSpan left + (pageCount + 1) := by omega
  cases right with
  | nil =>
    have last : r.size = pageidMax := closed.last_iff.mpr rfl
    have size : (rest r pageCount).size = pageidMax := if_pos last
    refine ⟨w.tupdate xid (regionSpan left + pageCount + 1)
      ⟨pageidMax, pageCount, .vacant, .invalid, 0⟩, ?_, .update live _, ?_,
      fun s more eq => (by cases eq), fun q ne _ => ?_⟩
    · refine bind_ok (assert_ok less) ?_
      exact if_neg (not_not.mpr last)
    · rw [← size, place]
      exact update_self ..
    · rw [← place] at ne
      exact update_of_ne ne ..
  | cons s right =>
    have inner : r.size ≠ pageidMax := fun eq => List.cons_ne_nil s right (closed.last_iff.mp eq)
    have size : (rest r pageCount).size = r.size - pageCount - 1 := if_neg inner
    have place' : regionSpan left + r.size + 1 = regionSpan left + (r.size + 1) := by omega
    have there := chain.next
    have ok := chain.prevOk_next
    have low := chain.next_low
    have first := chain.span_low.1
    rw [← place'] at there ok low
    obtain ⟨mid, set, tags, logs⟩ :=
      tsetBoundaryTag_ok { s.tag r.size with prevSize := r.size - pageCount - 1 } live there ok
        (.inr ⟨by omega, by simp only; omega⟩)
    refine ⟨mid.tupdate xid (regionSpan left + pageCount + 1)
      ⟨r.size - pageCount - 1, pageCount, .vacant, .invalid, 0⟩, ?_,
      logs.trans (.update (logs.live live) _), ?_, fun x more eq => ?_, fun q ne ne' => ?_⟩
    · refine bind_ok (assert_ok less) ?_
      refine (if_pos inner).trans (bind_ok (expectBoundaryTag_ok there ok) ?_)
      exact bind_ok set rfl
    · rw [← size, place]
      exact update_self ..
    · cases eq
      show update mid.tags _ _ _ = _
      rw [update_of_ne (by omega), tags, place', update_self, size]
      rfl
    · have ne' := ne' (List.cons_ne_nil s right)
      show update mid.tags _ _ _ = _
      rw [update_of_ne (by omega), tags, update_of_ne (by omega)]

theorem setOwner_ok (live : w.Live xid) (held : w.tags page = some t)
    (ok : PrevOk page t.prevSize) (f : Fingerprint → BoundaryTag)
    (prev : ∀ fp, (f fp).prevSize = t.prevSize) :
    ∃ after, (w.tgetTransactionFingerprint xid >>= fun (w, fp) =>
        w.tsetBoundaryTag xid page (f fp)) = .ok after ∧
      Logs xid w after ∧ 0 ≤ (after.tbl xid).recLSN ∧
      after.tags = update w.tags page (some (f ⟨xid, (after.tbl xid).recLSN⟩)) := by
  obtain ⟨mid, call, same, logs, valid⟩ := tgetTransactionFingerprint_ok live
  obtain ⟨after, set, tags, logs'⟩ := tsetBoundaryTag_ok (f ⟨xid, (mid.tbl xid).recLSN⟩)
    (logs.live live) (same ▸ held) ok ((prev _).symm ▸ ok)
  have kept : (after.tbl xid).recLSN = (mid.tbl xid).recLSN := by
    refine logs'.kept fun none => ?_
    rw [none] at valid
    exact absurd valid (by decide)
  refine ⟨after, bind_ok call set, logs.trans logs', kept.symm ▸ valid, ?_⟩
  rw [tags, same, kept]

section
variable (live : w.Live xid) (chain : Chain w.tags (left ++ r :: right))
include live chain

theorem tregionAllocHelper_whole (allocationManager : Int) :
    ∃ after, w.tregionAllocHelper xid (regionSpan left) r.size allocationManager = .ok after ∧
      Logs xid w after ∧ 0 ≤ (after.tbl xid).recLSN ∧
      after.tags = update w.tags (regionSpan left)
        (some ((zone after xid r.size allocationManager).tag (sizeInFront left))) := by
  obtain ⟨after, set, logs, valid, tags⟩ := setOwner_ok live chain.held chain.prevOk
    (fun fp => ⟨r.size, sizeInFront left, .zoned, fp, allocationManager⟩) fun _ => rfl
  refine ⟨after, ?_, logs, valid, tags⟩
  refine bind_ok (expectBoundaryTag_ok chain.held chain.prevOk) ?_
  exact (if_neg (not_not.mpr rfl)).trans (bind_ok rfl set)

theorem tregionAllocHelper_split (nonneg : 0 ≤ pageCount) (less : pageCount < r.size)
    (low : regionSpan left + (pageCount + 1) < pageidMax / 2) (allocationManager : Int) :
    ∃ after, w.tregionAllocHelper xid (regionSpan left) pageCount allocationManager = .ok after ∧
      Logs xid w after ∧ 0 ≤ (after.tbl xid).recLSN ∧
      Chain after.tags
        (left ++ zone after xid pageCount allocationManager :: rest r pageCount :: right) := by
  obtain ⟨mid, split, logs, new, next, others⟩ :=
    splitRegion_ok live chain nonneg less (sizeInFront left)
  have held : mid.tags (regionSpan left) = some (r.tag (sizeInFront left)) := by
    rw [others _ (by omega) fun _ => by omega]
    exact chain.held
  obtain ⟨after, set, logs', valid, tags⟩ := setOwner_ok (logs.live live) held chain.prevOk
    (fun fp => ⟨pageCount, sizeInFront left, .zoned, fp, allocationManager⟩) fun _ => rfl
  refine ⟨after, ?_, logs.trans logs', valid, ?_⟩
  · refine bind_ok (expectBoundaryTag_ok chain.held chain.prevOk) ?_
    exact (if_pos (Int.ne_of_gt less)).trans (bind_ok split set)
  · have inner : right ≠ [] → (rest r pageCount).size = r.size - pageCount - 1 :=
      fun more => if_neg fun last => more (chain.closed.last_iff.mp last)
    refine chain.split nonneg (fun more => ?_) (fun more => ?_) (fun last => ?_) low (.inr rfl)
      (.inl rfl) ?_ ?_ (fun s more eq => ?_) (fun q first second third => ?_)
    · have inner := inner more
      show pageCount + (rest r pageCount).size + 1 = r.size
      omega
    · have inner := inner more
      omega
    · exact if_pos (chain.closed.last_iff.mpr last)
    · rw [tags]
      exact update_self ..
    · rw [tags, update_of_ne (by simp only [zone]; omega)]
      exact new
    · rw [tags, update_of_ne (by omega)]
      exact next s more eq
    · rw [tags, update_of_ne first, others q second third]

theorem operateDeallocRegionUnlocked_ok (dat : RegionAllocArg)
    (place : dat.startPage = regionSpan left) :
    ∃ after, w.operateDeallocRegionUnlocked xid dat = .ok after ∧
      Logs xid w after ∧ 0 ≤ (after.tbl xid).recLSN ∧
      after.tags = update w.tags (regionSpan left)
        (some (({ r with
          status := .vacant
          regionXidFp := ⟨xid, (after.tbl xid).recLSN⟩ } : Region).tag (sizeInFront left))) := by
  obtain ⟨after, set, logs, valid, tags⟩ := setOwner_ok live chain.held chain.prevOk
    (fun fp => ⟨r.size, sizeInFront left, .vacant, fp, r.allocationManager⟩) fun _ => rfl
  refine ⟨after, ?_, logs, valid, tags⟩
  rw [World.operateDeallocRegionUnlocked, place]
  exact bind_ok (expectBoundaryTag_ok chain.held chain.prevOk) set

end

/-- What is left of the region from which pages were allocated. -/
def carve (r : Region) (pageCount : Int) : List Region :=
  if r.size = pageCount then [] else [rest r pageCount]

theorem carve_span (pageCount : Int) (closed : Closed (left ++ r :: right)) (more : right ≠ []) :
    pageCount + 1 + regionSpan (carve r pageCount) = r.size + 1 := by
  rw [carve]
  split
  · next whole =>
    show pageCount + 1 + 0 = _
    omega
  · have size : (rest r pageCount).size = r.size - pageCount - 1 :=
      if_neg fun last => more (closed.last_iff.mp last)
    show pageCount + 1 + ((rest r pageCount).size + 1 + 0) = _
    omega

theorem carve_at (closed : Closed (left ++ r :: right)) :
    TagAt (left ++ z :: (carve r z.size ++ right)) p c ↔
      At Region.size 0 left p c ∨ p = regionSpan left ∧ c = z ∨
        At Region.size (regionSpan left + (z.size + 1)) (carve r z.size) p c ∨
        At Region.size (regionSpan left + (r.size + 1)) right p c := by
  rw [TagAt, at_append, Int.zero_add]
  refine or_congr Iff.rfl (or_congr Iff.rfl ?_)
  rw [at_append]
  refine or_congr Iff.rfl ?_
  cases right with
  | nil => exact Iff.rfl
  | cons s right =>
    have size := carve_span z.size closed (List.cons_ne_nil s right)
    have place : span Region.size left + (z.size + 1) + span Region.size (carve r z.size) =
        regionSpan left + (r.size + 1) := by
      rw [← size, regionSpan, regionSpan]
      omega
    rw [place]

theorem whole_at : TagAt (left ++ r :: right) p c ↔
    At Region.size 0 left p c ∨ p = regionSpan left ∧ c = r ∨
      At Region.size (regionSpan left + (r.size + 1)) right p c := by
  rw [TagAt, at_append, Int.zero_add]
  exact Iff.rfl

theorem tregionAllocHelper_ok (live : w.Live xid) (chain : Chain w.tags (left ++ r :: right))
    (nonneg : 0 ≤ pageCount) (fits : pageCount ≤ r.size)
    (low : regionSpan left + (pageCount + 1) < pageidMax / 2) (allocationManager : Int) :
    ∃ after, w.tregionAllocHelper xid (regionSpan left) pageCount allocationManager = .ok after ∧
      Logs xid w after ∧ 0 ≤ (after.tbl xid).recLSN ∧
      Chain after.tags
        (left ++ zone after xid pageCount allocationManager :: (carve r pageCount ++ right)) := by
  by_cases whole : r.size = pageCount
  · obtain ⟨after, ran, logs, valid, tags⟩ :=
      tregionAllocHelper_whole live chain allocationManager
    rw [carve, if_pos whole]
    rw [whole] at ran tags
    refine ⟨after, ran, logs, valid, ?_⟩
    rw [tags]
    exact chain.relabel whole.symm (.inr rfl)
  · obtain ⟨after, ran, logs, valid, chain⟩ := tregionAllocHelper_split live chain nonneg
      (by omega) low allocationManager
    rw [carve, if_neg whole]
    exact ⟨after, ran, logs, valid, chain⟩

/-- The transaction can undo one more entry, and has logged what belongs to it. -/
structure Pushed (xid : Int) (e : Entry) (w after : World) : Prop where
  logs : Logs xid w { after with undo := w.undo }
  undo : after.undo = update w.undo xid (e :: w.undo xid)
  valid : 0 ≤ (after.tbl xid).recLSN

theorem tendNestedTopAction_none (w : World) (xid : Int) :
    w.tendNestedTopAction xid none = w.logUpdate xid := by
  rw [World.tendNestedTopAction, Option.toList_none, List.nil_append, update_eq_self]
  rfl

theorem pushed_end (live : w.Live xid) (logs : Logs xid w mid) (valid : 0 ≤ (mid.tbl xid).recLSN) :
    Pushed xid e w (mid.tendNestedTopAction xid (some e)) ∧
      ((mid.tendNestedTopAction xid (some e)).tbl xid).recLSN = (mid.tbl xid).recLSN := by
  have logged := Logs.update (logs.live live) mid.tags
  have same : ((mid.tendNestedTopAction xid (some e)).tbl xid).recLSN = (mid.tbl xid).recLSN := by
    refine logged.kept fun none => ?_
    rw [none] at valid
    exact absurd valid (by decide)
  have whole := logs.trans logged
  refine ⟨⟨?_, ?_, same.symm ▸ valid⟩, same⟩
  · rw [← whole.undo]
    exact whole
  · rw [World.tendNestedTopAction, logs.undo]
    rfl

theorem tregionAlloc_ok (live : w.Live xid) (h : Scan w xid w l) (enough : l.length ≤ turns)
    (nonneg : 0 ≤ pageCount) (eof : TagAt l last r) (size : r.size = pageidMax)
    (low : last + pageCount + 1 < pageidMax / 2) (allocationManager : Int) :
    ∃ after left r right,
      w.tregionAlloc turns xid pageCount allocationManager = .ok (after, regionSpan left + 1) ∧
      Merges w.tisActiveTransaction l (left ++ r :: right) ∧ Closed (left ++ r :: right) ∧
      Free w.tisActiveTransaction r ∧ pageCount ≤ r.size ∧
      Chain after.tags
        (left ++ zone after xid pageCount allocationManager :: (carve r pageCount ++ right)) ∧
      Pushed xid (.allocRegion ⟨regionSpan left, pageCount, allocationManager⟩) w after := by
  have half := half_lt
  have lastLow := h.chain.low last eof.mem_places
  have first := le_of_mem_places h.chain.nonneg eof.mem_places
  obtain ⟨r0, tail, rfl⟩ : ∃ r0 tail, l = r0 :: tail := by
    cases l with
    | nil => exact h.chain.closed.elim
    | cons r0 tail => exact ⟨r0, tail, rfl⟩
  have scan : Scan w xid w ([] ++ r0 :: tail) := h
  obtain ⟨w1, left1, r1, right1, step, scan1, merges1, shorter⟩ := scan.consolidateRegions_ok live
  rw [List.length_cons] at enough
  obtain ⟨w2, left, r, right, loop, scan2, merges2, free, large⟩ :=
    scan1.firstFit_ok turns pageCount live (by omega) (by omega)
  have merges : Merges w.tisActiveTransaction (r0 :: tail) (left ++ r :: right) :=
    merges1.trans merges2
  have here : regionSpan left ≤ last :=
    h.chain.closed.le_last eof size (merges.places (Chain.mem_places left r right))
  have logs3 := scan2.logs.trans (Logs.update (scan2.logs.live live) w2.tags)
  obtain ⟨w4, ran, logs4, valid, chain⟩ := tregionAllocHelper_ok (w := w2.logUpdate xid)
    (logs3.live live) scan2.chain nonneg large (by omega) allocationManager
  obtain ⟨pushed, same⟩ := pushed_end
    (e := .allocRegion ⟨regionSpan left, pageCount, allocationManager⟩) live
    (logs3.trans logs4) valid
  refine ⟨_, left, r, right, ?_, merges, scan2.chain.closed, free, large, ?_, pushed⟩
  · refine bind_ok (scan.expect rfl) (bind_ok step ?_)
    refine bind_ok loop (bind_ok ?_ rfl)
    rw [tendNestedTopAction_none]
    exact ran
  · rw [zone, same]
    exact chain

theorem tregionDealloc_ok (live : w.Live xid) (chain : Chain w.tags (left ++ r :: right))
    (zoned : r.status = .zoned) :
    ∃ after, w.tregionDealloc xid (regionSpan left + 1) = .ok after ∧
      after.tags = update w.tags (regionSpan left)
        (some (({ r with
          status := .vacant
          regionXidFp := ⟨xid, (after.tbl xid).recLSN⟩ } : Region).tag (sizeInFront left))) ∧
      Pushed xid (.deallocRegion ⟨regionSpan left, r.size, r.allocationManager⟩) w after := by
  have place : regionSpan left + 1 - 1 = regionSpan left := by omega
  obtain ⟨mid, ran, logs, valid, tags⟩ := operateDeallocRegionUnlocked_ok live chain
    ⟨regionSpan left, r.size, r.allocationManager⟩ rfl
  obtain ⟨pushed, same⟩ := pushed_end
    (e := .deallocRegion ⟨regionSpan left, r.size, r.allocationManager⟩) live logs valid
  refine ⟨_, ?_, ?_, pushed⟩
  · rw [World.tregionDealloc, place]
    refine bind_ok (expectBoundaryTag_ok chain.held chain.prevOk) ?_
    have busy : r.status ≠ .vacant := fun vacant => by cases zoned.symm.trans vacant
    refine bind_ok (assert_ok busy) ?_
    exact bind_ok ran rfl
  · rw [same]
    exact tags

end Stasis.Regions
