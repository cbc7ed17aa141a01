import Stasis.Operations.Regions.Runs

/-!
The chain of boundary tags, what aborts rely on, and what an allocation returns.

The transactions of a run are careful: what they allocate stays in the lower half of the
page ids, and they do not free what another active transaction has allocated.
-/
namespace Stasis.Regions
open BoundaryTags TransactionTable Fallible Option

/-- The tags that are reached from page 0 tile the page file. -/
structure Tiled (w : World) : Prop where
  first : ∃ t, w.tags 0 = some t ∧ t.prevSize = pageidMax
  kinds : ∀ p t, Linked w.tags p t → t.status = .vacant ∨ t.status = .zoned
  next : ∀ p t, Linked w.tags p t → t.size ≠ pageidMax →
    0 ≤ t.size ∧ ∃ s, w.tags (p + (t.size + 1)) = some s ∧ s.prevSize = t.size
  last : ∃ p t, Linked w.tags p t ∧ t.size = pageidMax ∧ t.status = .vacant ∧
    w.tisActiveTransaction t.regionXidFp = false ∧
      ∀ q s, Linked w.tags q s → s.size = pageidMax → q = p
  inside : ∀ p t, w.tags p = some t → ¬ Linked w.tags p t → t.status = .condemned

/-- What the abort of an active transaction relies on. A region that it has deallocated is
as it was, and the entry that is undone next is about such a region, or about one that
the transaction has allocated. -/
structure Isolated (w : World) : Prop where
  deallocated : ∀ xid a, w.tbl.IsActive xid → .deallocRegion a ∈ w.undo xid →
    ∃ prev, Linked w.tags a.startPage
      ⟨a.pageCount, prev, .vacant, w.owner xid, a.allocationManager⟩
  logged : ∀ xid firstPage t, (Op.dealloc xid firstPage).Legal w →
    (Op.dealloc xid firstPage).Careful w → w.tags (firstPage - 1) = some t →
    ∃ w', w.tregionDealloc xid firstPage = .ok w' ∧
      w'.undo xid = .deallocRegion ⟨firstPage - 1, t.size, t.allocationManager⟩ :: w.undo xid
  undone : ∀ xid e u, w.tbl.IsActive xid → w.undo xid = e :: u →
    ∃ prev w', Linked w.tags e.arg.startPage ((e.region (w.owner xid)).tag prev) ∧
      w.undoNext xid = .ok w' ∧ w'.undo xid = u ∧
      w'.tags = Function.update w.tags e.arg.startPage
        (some ((e.undone (w'.owner xid)).tag prev))

section
variable {w : World}

theorem Chain.linked_at (h : Chain w.tags l) (here : TagAt l p r) :
    ∃ prev, Linked w.tags p (r.tag prev) := by
  obtain ⟨left, right, rfl, place⟩ := At.split here
  rw [← place, Int.zero_add]
  exact ⟨_, h.linked⟩

theorem Linked.tag_at (h : Linked w.tags p t) (chain : Chain w.tags l) :
    ∃ r prev, TagAt l p r ∧ t = r.tag prev := by
  obtain ⟨left, r, right, rfl, rfl, rfl⟩ := h.split chain
  exact ⟨r, _, .mid, rfl⟩

theorem Inv.tiled (h : Inv w l) : Tiled w where
  first := by
    cases l with
    | nil => exact h.chain.closed.elim
    | cons r right => exact ⟨_, h.chain.laid.1, rfl⟩
  kinds := by
    intro p t linked
    obtain ⟨r, prev, here, rfl⟩ := linked.tag_at h.chain
    exact h.chain.kinds r here.mem
  next := by
    intro p t linked more
    obtain ⟨left, r, right, rfl, rfl, rfl⟩ := linked.split h.chain
    cases right with
    | nil => exact absurd (h.chain.closed.last_iff.mpr rfl) more
    | cons s right => exact ⟨h.chain.nonneg r (by simp), _, h.chain.next, rfl⟩
  last := by
    cases l using List.reverseRecOn with
    | nil => exact h.chain.closed.elim
    | append_singleton left r =>
      have size : r.size = pageidMax := h.chain.closed.last_iff.mpr rfl
      have free := h.last r (by simp) size
      refine ⟨_, _, h.chain.linked, size, free.1, free.2, fun q s linked last => ?_⟩
      obtain ⟨r', prev, here, rfl⟩ := linked.tag_at h.chain
      have last : r'.size = pageidMax := last
      exact (h.chain.closed.last_at .mid size here).resolve_right (by omega)
  inside := by
    intro p t held out
    refine (h.chain.orphans p t held fun mem => out ?_).1
    obtain ⟨r, here⟩ := at_of_mem_places mem
    obtain ⟨left, right, rfl, place⟩ := At.split here
    rw [← place, Int.zero_add] at held ⊢
    rw [some.inj (held.symm.trans h.chain.held)]
    exact h.chain.linked

/-- A region with an entry about its deallocation. -/
theorem Undoable.deallocated (h : Undoable l fp p u) (mem : .deallocRegion a ∈ u) :
    TagAt l p ((Entry.deallocRegion a).region fp) := by
  cases h with
  | none => cases mem
  | once e here => exact List.mem_singleton.mp mem ▸ here
  | both b here =>
    cases mem with
    | head => exact here
    | tail _ mem => cases List.mem_singleton.mp mem

theorem Inv.isolated (h : Inv w l) : Isolated w where
  deallocated := by
    intro xid a active mem
    have mem : .deallocRegion a ∈ about (w.undo xid) a.startPage :=
      List.mem_filter.mpr ⟨mem, decide_eq_true rfl⟩
    exact h.chain.linked_at ((h.undoable xid active a.startPage).deallocated mem)
  logged := by
    intro xid firstPage t legal careful held
    obtain ⟨running, t', held', zoned⟩ := legal
    cases held.symm.trans held'
    obtain ⟨w', _, _, _, _, ran, _, _, _, pushed, _⟩ := h.dealloc running.1 held zoned (careful t held)
    refine ⟨w', ran, ?_⟩
    rw [pushed.undo, Function.update_self]
  undone := by
    intro xid e u active entries
    obtain ⟨w', left, right, ran, rfl, place, tags, rest, _⟩ := h.undoNext active entries
    refine ⟨sizeInFront left, w', ?_, ran, rest, tags⟩
    rw [← place]
    exact h.chain.linked

end

instance (w : World) : (op : Op) → Decidable (op.Legal w)
  | .begin _ | .alloc .. | .commit _ | .undo _ | .aborted _ => inferInstanceAs (Decidable (_ ∧ _))
  | .dealloc .. => inferInstanceAs (Decidable (_ ∧ _))

instance (w : World) (page : Int) : Decidable (w.LastTag page) :=
  inferInstanceAs (Decidable (w.TagMeets page fun _ => _ ∧ _))

/-- A deallocation of what no other active transaction has allocated. -/
def Op.Respects (w : World) : Op → Prop
  | dealloc xid firstPage => w.TagMeets (firstPage - 1) fun t => ¬ w.OwnedByOther xid t
  | _ => True

instance (w : World) : (op : Op) → Decidable (op.Respects w)
  | .begin _ | .alloc .. | .commit _ | .undo _ | .aborted _ => inferInstanceAs (Decidable True)
  | .dealloc .. => inferInstanceAs (Decidable (World.TagMeets ..))

/-- The last tag is on `page`, and what is allocated fits behind it. -/
def Op.FitsAt (w : World) (page : Int) : Op → Prop
  | alloc _ _ pageCount _ => w.LastTag page ∧ page + pageCount + 1 < pageidMax / 2
  | _ => True

instance (w : World) (page : Int) : (op : Op) → Decidable (op.FitsAt w page)
  | .begin _ | .dealloc .. | .commit _ | .undo _ | .aborted _ => inferInstanceAs (Decidable True)
  | .alloc .. => inferInstanceAs (Decidable (_ ∧ _))

theorem Op.careful_of_fitsAt {op : Op} (respects : op.Respects w) (fits : op.FitsAt w page) :
    op.Careful w := by
  cases op with
  | begin xid | commit xid | undo xid | aborted xid => trivial
  | alloc turns xid pageCount allocationManager => exact ⟨page, fits⟩
  | dealloc xid firstPage =>
    obtain ⟨t, held, mine⟩ := respects
    exact fun t' held' => some.inj (held.symm.trans held') ▸ mine

/-- A careful step, with the page of the last tag. -/
def runAt (w : World) (step : Op × Int) : Option World :=
  Runs.tryStep (fun w (step : Op × Int) => step.1.run w)
    (fun w step => step.1.Legal w ∧ step.1.Respects w ∧ step.1.FitsAt w step.2) w step

theorem Reached.of_steps {steps : List (Op × Int)}
    (ran : steps.foldlM runAt .regionsInit = some w) : Reached w :=
  (Runs.Reached.start.steps ran).rename Prod.fst fun _ _ ⟨legal, respects, fits⟩ =>
    ⟨legal, Op.careful_of_fitsAt respects fits⟩

/-- Transaction 0 allocates two regions, of which transaction 1 frees the first one. -/
def freedRun : List (Op × Int) :=
  [(.begin 0, 0), (.alloc 5 0 3 7, 0), (.alloc 5 0 2 7, 4), (.commit 0, 0), (.begin 1, 0),
    (.dealloc 1 1, 0), (.begin 2, 0)]

theorem region_chain_tiles {w : World} (h : Reached w) :
    Tiled w ∧ (∀ op : Op, op.Legal w → op.Careful w → op.run w ≠ .error .assertion) ∧
      ∃ enough, ∀ turns, enough ≤ turns → w.fsckRegions turns = .ok () := by
  obtain ⟨l, inv⟩ := h.inv
  exact ⟨inv.tiled, fun op => inv.no_assertion, l.length, fun turns => inv.fsckRegions_ok⟩

theorem region_chain_tiles_freed :
    ∃ w, (w.tags 4).map (·.prevSize) = some 3 ∧ Tiled w := by
  obtain ⟨w, ran, prev⟩ : ∃ w, freedRun.foldlM runAt .regionsInit = some w ∧
      (w.tags 4).map (·.prevSize) = some 3 := by
    decide +kernel
  exact ⟨w, prev, (region_chain_tiles (.of_steps ran)).1⟩

/-- An allocation of all the pages there are zones the last tag. The next one finds no tag
behind it. -/
theorem last_tag_zoned :
    ∃ w, Runs.Reached Op.run (fun w (op : Op) => op.Legal w) .regionsInit w ∧
      w.tags 0 = some ⟨pageidMax, pageidMax, .zoned, ⟨0, 1⟩, 7⟩ ∧
      (Op.alloc 5 0 1 7).Legal w ∧ (Op.alloc 5 0 1 7).run w = .error .assertion :=
  Runs.Reached.of_steps [.begin 0, .alloc 5 0 pageidMax 7] (by decide +kernel)

theorem region_deallocation_isolated {w : World} (h : Reached w) : Isolated w := by
  obtain ⟨l, inv⟩ := h.inv
  exact inv.isolated

theorem region_deallocation_isolated_freed :
    ∃ w, w.undo 1 = [.deallocRegion ⟨0, 3, 7⟩] ∧ Isolated w := by
  obtain ⟨w, ran, entries⟩ : ∃ w, freedRun.foldlM runAt .regionsInit = some w ∧
      w.undo 1 = [.deallocRegion ⟨0, 3, 7⟩] := by
    decide +kernel
  exact ⟨w, entries, region_deallocation_isolated (.of_steps ran)⟩

/-- Transaction 1 has deallocated the last region, which an allocation of all the pages had
zoned. The free region in front of it takes its pages, transaction 3 gets them, and the
deallocation cannot be undone. -/
theorem last_region_handed_out :
    ∃ w, Runs.Reached Op.run (fun w (op : Op) => op.Legal w ∧ op.Respects w) .regionsInit w ∧
      w.undo 1 = [.deallocRegion ⟨2, pageidMax, 7⟩] ∧
      w.tags 2 = some ⟨1, 1, .zoned, ⟨3, 14⟩, 9⟩ ∧
      (Op.undo 1).Legal w ∧ (Op.undo 1).run w = .error .assertion :=
  Runs.Reached.of_steps [.begin 0, .alloc 9 0 1 7, .alloc 9 0 pageidMax 7, .commit 0, .begin 1,
    .dealloc 1 3, .begin 2, .dealloc 2 1, .commit 2, .begin 3, .alloc 9 3 1 9, .alloc 9 3 1 9]
    (by decide +kernel)

theorem region_alloc_terminates {w : World} (h : Reached w) {xid pageCount : Int}
    (running : w.Running xid) (nonneg : 0 ≤ pageCount)
    (fits : ∃ page, w.LastTag page ∧ page + pageCount + 1 < pageidMax / 2)
    (allocationManager : Int) :
    ∃ enough w' firstPage,
      (∀ turns, enough ≤ turns →
        w.tregionAlloc turns xid pageCount allocationManager = .ok (w', firstPage)) ∧
      (∃ prev, Linked w'.tags (firstPage - 1)
        ⟨pageCount, prev, .zoned, w'.owner xid, allocationManager⟩) ∧
      ∀ p t, Linked w.tags p t →
        t.status = .zoned ∨ w.tisActiveTransaction t.regionXidFp = true →
        (p + t.size < firstPage - 1 ∨ firstPage - 1 + pageCount < p) ∧
          ∃ prev, Linked w'.tags p { t with prevSize := prev } := by
  obtain ⟨l, before⟩ := h.inv
  obtain ⟨w', left, r, right, ran, merges, closed, free, _, _, inv⟩ :=
    before.alloc running.1 nonneg fits (Nat.le_refl _) allocationManager
  refine ⟨l.length, w', regionSpan left + 1, fun turns le => ?_, ?_, fun p t linked used => ?_⟩
  · rw [tregionAlloc_mono le (by rw [ran]; nofun), ran]
  · rw [Int.add_sub_cancel]
    exact ⟨_, inv.chain.linked⟩
  · obtain ⟨c, prev, here, rfl⟩ := linked.tag_at before.chain
    have busy : ¬ Free w.tisActiveTransaction c := by
      rintro ⟨vacant, ended⟩
      rcases used with zoned | active
      · cases zoned.symm.trans vacant
      · cases active.symm.trans ended
    have other : p ≠ regionSpan left := fun eq => by
      have moved := merges.kept here busy
      rw [eq] at moved
      exact busy (At.unique closed.nonneg moved TagAt.mid ▸ free)
    have kept := Inv.alloc_kept (z := zone w' xid pageCount allocationManager) merges closed free
      busy here
    refine ⟨?_, inv.chain.linked_at kept⟩
    rw [Int.add_sub_cancel]
    rcases Int.lt_or_gt_of_ne other with lt | gt
    · exact .inl (At.apart inv.chain.nonneg kept TagAt.mid lt)
    · exact .inr (At.apart inv.chain.nonneg TagAt.mid kept gt)

/-- The region that transaction 1 has freed is passed over for transaction 2. -/
theorem region_alloc_terminates_freed :
    ∃ w : World, w.Running 2 ∧ w.LastTag 7 ∧ ∃ enough w' firstPage,
      (∀ turns, enough ≤ turns → w.tregionAlloc turns 2 1 9 = .ok (w', firstPage)) ∧
        ∃ prev, Linked w'.tags (firstPage - 1) ⟨1, prev, .zoned, w'.owner 2, 9⟩ := by
  obtain ⟨w, ran, running, last⟩ : ∃ w, freedRun.foldlM runAt .regionsInit = some w ∧
      w.Running 2 ∧ w.LastTag 7 := by
    decide +kernel
  obtain ⟨enough, w', firstPage, ends, new, _⟩ := region_alloc_terminates (.of_steps ran) running
    (show (0 : Int) ≤ 1 by decide) ⟨7, last, by decide⟩ 9
  exact ⟨w, running, last, enough, w', firstPage, ends, new⟩

/-- Transaction 1 frees what transaction 0 has allocated, and its pages are used by others
until page 2 has the last tag. When transaction 0 aborts, that tag gets its fingerprint,
and there is no region for transaction 3. -/
theorem last_tag_of_active :
    ∃ w, Runs.Reached Op.run (fun w (op : Op) => op.Legal w) .regionsInit w ∧
      (Op.alloc 9 3 1 7).Legal w ∧ w.LastTag 2 ∧
      (Op.alloc 9 3 1 7).run w = .error .assertion :=
  Runs.Reached.of_steps [.begin 0, .alloc 9 0 1 7, .alloc 9 0 1 7, .begin 1, .dealloc 1 3,
    .dealloc 1 1, .commit 1, .begin 2, .alloc 9 2 5 7, .dealloc 2 1, .commit 2, .begin 3,
    .alloc 9 3 1 7, .undo 0] (by decide +kernel)

end Stasis.Regions
