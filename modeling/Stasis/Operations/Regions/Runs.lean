import Stasis.Operations.Regions.Invariant

/-!
What holds in every page file that careful transactions reach.

A call that comes to an end with some turns comes to the same end with more of them, so
the step of a run may be taken with as many turns as there are regions. The tags that the
source reaches from page 0 are those of the chain.
-/
namespace Stasis.Regions
open BoundaryTags TransactionTable Fallible

theorem firstFit_mono (le : turns ≤ more)
    (ends : World.firstFit turns w xid pageCount pageid t ≠ .error .turns) :
    World.firstFit more w xid pageCount pageid t =
      World.firstFit turns w xid pageCount pageid t := by
  induction turns generalizing more w pageid t with
  | zero => exact absurd rfl ends
  | succ turns ih =>
    cases more with
    | zero => cases le
    | succ more =>
      rw [World.firstFit] at ends ⊢
      rw [World.firstFit]
      split at ends
      · next skip =>
        rw [if_pos skip, if_pos skip]
        refine bind_agree ends fun s ends => bind_agree ends fun after ends => ?_
        exact ih (Nat.le_of_succ_le_succ le) ends
      · next found => rw [if_neg found, if_neg found]

theorem tregionAlloc_mono {w : World} (le : turns ≤ more)
    (ends : w.tregionAlloc turns xid pageCount allocationManager ≠ .error .turns) :
    w.tregionAlloc more xid pageCount allocationManager =
      w.tregionAlloc turns xid pageCount allocationManager := by
  refine bind_agree ends fun t ends => bind_agree ends fun ⟨w', pageid, t'⟩ ends => ?_
  have loop : World.firstFit turns w' xid pageCount pageid t' ≠ .error .turns := fun stuck => by
    refine ends ?_
    show (World.firstFit turns w' xid pageCount pageid t' >>= _) = _
    rw [stuck]
    rfl
  show (World.firstFit more w' xid pageCount pageid t' >>= _) = _
  rw [firstFit_mono le loop]

section Step
variable {op : Op}

/-- An allocation ends as it does with a turn for each region. -/
theorem Inv.tregionAlloc_ok (h : Inv w l) {turns : Nat}
    (legal : (Op.alloc turns xid pageCount allocationManager).Legal w)
    (careful : (Op.alloc turns xid pageCount allocationManager).Careful w)
    (ends : w.tregionAlloc turns xid pageCount allocationManager ≠ .error .turns) :
    ∃ after l', w.tregionAlloc turns xid pageCount allocationManager = .ok after ∧
      Inv after.1 l' := by
  obtain ⟨w', left, r, right, ran, _, _, _, _, _, inv⟩ :=
    h.alloc legal.1.1 legal.2 careful (Nat.le_max_right turns _) allocationManager
  rw [tregionAlloc_mono (Nat.le_max_left turns _) ends] at ran
  exact ⟨_, _, ran, inv⟩

theorem Inv.step (h : Inv w l) (legal : op.Legal w) (careful : op.Careful w)
    (ran : op.run w = .ok w') : ∃ l', Inv w' l' := by
  cases op with
  | begin xid =>
    cases ran
    exact ⟨l, h.tbegin legal.2⟩
  | alloc turns xid pageCount allocationManager =>
    obtain ⟨after, found, eq⟩ := bind_eq_ok.mp ran
    obtain ⟨_, l', ok, inv⟩ := h.tregionAlloc_ok legal careful (by rw [found]; nofun)
    rw [← Except.ok.inj (found.symm.trans ok), Except.ok.inj eq] at inv
    exact ⟨l', inv⟩
  | dealloc xid firstPage =>
    obtain ⟨running, t, held, zoned⟩ := legal
    obtain ⟨_, _, _, _, _, ok, _, _, _, _, inv⟩ := h.dealloc running.1 held zoned (careful t held)
    rw [Except.ok.inj (ran.symm.trans ok)]
    exact ⟨_, inv⟩
  | commit xid | aborted xid =>
    cases ran
    exact ⟨l, h.ended xid⟩
  | undo xid =>
    obtain ⟨e, u, entries⟩ := List.exists_cons_of_ne_nil legal.2
    obtain ⟨_, _, _, ok, _, _, _, _, inv⟩ := h.undoNext legal.1 entries
    rw [Except.ok.inj (ran.symm.trans ok)]
    exact ⟨_, inv⟩

theorem Reached.inv (h : Reached w) : ∃ l, Inv w l :=
  Runs.Reached.invariant (P := fun w => ∃ l, Inv w l) ⟨_, Inv.regionsInit⟩
    (fun _ _ _ _ ⟨_, inv⟩ allowed ran => inv.step allowed.1 allowed.2 ran) h

/-- No assertion of a call fails. -/
theorem Inv.no_assertion (h : Inv w l) (legal : op.Legal w) (careful : op.Careful w) :
    op.run w ≠ .error .assertion := by
  intro failed
  cases op with
  | begin xid | commit xid | aborted xid => cases failed
  | alloc turns xid pageCount allocationManager =>
    have failed : w.tregionAlloc turns xid pageCount allocationManager = .error .assertion :=
      (bind_eq_error.mp failed).resolve_right fun ⟨_, _, eq⟩ => by cases eq
    obtain ⟨_, _, ok, _⟩ := h.tregionAlloc_ok legal careful (by rw [failed]; nofun)
    cases failed.symm.trans ok
  | dealloc xid firstPage =>
    obtain ⟨running, t, held, zoned⟩ := legal
    obtain ⟨_, _, _, _, _, ok, _⟩ := h.dealloc running.1 held zoned (careful t held)
    cases failed.symm.trans ok
  | undo xid =>
    obtain ⟨e, u, entries⟩ := List.exists_cons_of_ne_nil legal.2
    obtain ⟨_, _, _, ok, _⟩ := h.undoNext legal.1 entries
    cases failed.symm.trans ok

end Step

/-- The tags that the source comes to from page 0, going from each tag to the page behind
its region. -/
inductive Linked (tags : Int → Option BoundaryTag) : Int → BoundaryTag → Prop
  | first {t : BoundaryTag} (held : tags 0 = some t) : Linked tags 0 t
  | next {p : Int} {t t' : BoundaryTag} (before : Linked tags p t) (more : t.size ≠ pageidMax)
      (held : tags (p + (t.size + 1)) = some t') : Linked tags (p + (t.size + 1)) t'

theorem Chain.linked (h : Chain tags (left ++ r :: right)) :
    Linked tags (regionSpan left) (r.tag (sizeInFront left)) := by
  induction left using List.reverseRecOn generalizing r right with
  | nil => exact .first h.held
  | append_singleton left q ih =>
    rw [← List.append_cons] at h
    rw [Chain.span_concat, Chain.inFront_concat]
    refine .next (ih h) (fun last => ?_) h.next
    cases h.closed.last_iff.mp last

theorem Linked.split (h : Linked tags p t) (chain : Chain tags l) :
    ∃ left r right, l = left ++ r :: right ∧ p = regionSpan left ∧ t = r.tag (sizeInFront left) := by
  induction h with
  | first held =>
    cases l with
    | nil => exact chain.closed.elim
    | cons r right =>
      exact ⟨[], r, right, rfl, rfl, Option.some.inj (held.symm.trans chain.laid.1)⟩
  | next before more held ih =>
    obtain ⟨left, r, right, rfl, rfl, rfl⟩ := ih
    cases right with
    | nil => exact absurd (chain.closed.last_iff.mpr rfl) more
    | cons s right =>
      refine ⟨left ++ [r], s, right, List.append_cons .., Chain.span_concat.symm, ?_⟩
      rw [Chain.inFront_concat]
      exact Option.some.inj (held.symm.trans chain.next)

section Fsck
variable {w : World}

theorem fsckPage_ok (h : Chain w.tags (left ++ r :: right)) (inside : regionSpan left < q)
    (before : q < regionSpan left + (r.size + 1)) : w.fsckPage q = .ok () := by
  cases held : w.tags q with
  | none =>
    rw [World.fsckPage, World.readBoundaryTag, held]
    rfl
  | some t =>
    have out : q ∉ places Region.size 0 (left ++ r :: right) := by
      rw [places_append, List.mem_append, Int.zero_add]
      rintro (front | here)
      · have lt := lt_of_mem_places (fun b mem => h.nonneg b (by simp [mem])) front
        rw [Int.zero_add] at lt
        exact absurd lt (Int.lt_asymm inside)
      · cases here with
        | head => exact lt_irrefl _ inside
        | tail _ behind =>
          have le : regionSpan left + (r.size + 1) ≤ q :=
            le_of_mem_places (fun b mem => h.nonneg b (by simp [mem])) behind
          omega
    obtain ⟨condemned, prev⟩ := h.orphans q t held out
    rw [World.fsckPage, readBoundaryTag_ok held prev]
    exact assert_ok condemned

theorem fsckFrom_ok (h : Chain w.tags (left ++ r :: right))
    (last : ∀ x ∈ left ++ r :: right, x.size = pageidMax → x.status = .vacant)
    (enough : right.length < turns) :
    w.fsckFrom turns (sizeInFront left) (regionSpan left) (r.tag (sizeInFront left)) = .ok () := by
  induction right generalizing left r turns with
  | nil =>
    obtain ⟨turns, rfl⟩ := Nat.exists_eq_add_of_lt enough
    have size : r.size = pageidMax := h.closed.last_iff.mpr rfl
    rw [World.fsckFrom]
    exact (if_neg (not_not.mpr size)).trans (assert_ok (last r (by simp) size))
  | cons s right ih =>
    obtain ⟨turns, rfl⟩ := Nat.exists_eq_add_of_lt enough
    have size : r.size ≠ pageidMax := fun eq => by cases h.closed.last_iff.mp eq
    have place : regionSpan left + 1 + r.size = regionSpan left + (r.size + 1) := by omega
    have rest := h
    rw [List.append_cons] at rest last
    have tail := ih rest last (show _ < List.length (s :: right) + turns by simp; omega)
    rw [Chain.span_concat, Chain.inFront_concat] at tail
    rw [World.fsckFrom]
    refine (if_pos size).trans (bind_ok (assert_ok (h.kinds r (by simp)))
      (bind_ok (assert_ok rfl) (bind_ok (forM_ok fun i mem => ?_)
        (bind_ok (a := s.tag r.size) ?_ ?_))))
    · have below := List.mem_range.mp mem
      have nonneg := h.nonneg r (by simp)
      have below : (i : Int) < r.size := by
        rw [← Int.toNat_of_nonneg nonneg]
        exact Int.ofNat_lt.mpr below
      exact fsckPage_ok h (by omega) (by omega)
    · exact expectBoundaryTag_ok (place ▸ h.next) (place ▸ h.prevOk_next)
    · rw [← place] at tail
      exact tail

theorem Inv.fsckRegions_ok (h : Inv w l) (enough : l.length ≤ turns) :
    w.fsckRegions turns = .ok () := by
  cases l with
  | nil => exact h.chain.closed.elim
  | cons r right =>
    have first : w.tags 0 = some (r.tag pageidMax) := h.chain.laid.1
    refine bind_ok (expectBoundaryTag_ok first (.inl ⟨rfl, rfl⟩)) (bind_ok (assert_ok rfl) ?_)
    have rest : Chain w.tags ([] ++ r :: right) := h.chain
    exact fsckFrom_ok rest (fun x mem size => (h.last x mem size).1) enough

end Fsck

end Stasis.Regions
