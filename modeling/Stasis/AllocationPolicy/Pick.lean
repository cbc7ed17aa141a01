import Stasis.AllocationPolicy.Views

/-!
Choosing a page for an allocation.

A transaction gets the page of its own with the least room that is enough. If it has
none, it gets such a page that nobody uses. The lookups start at page 0, so they miss
a page with a negative identifier.
-/
namespace Stasis.AllocationPolicy
open OrderedTable Prod.Lex Option

theorem canXidAllocFromPage_iff {ap : Policy} (sound : ap.Sound) :
    canXidAllocFromPage ap x p ↔ ∀ y, ap.contents.Row .dealloced y p → y = x := by
  rw [canXidAllocFromPage, List.all_eq_true]
  refine forall_congr' fun y => ?_
  rw [decide_eq_true_eq]
  exact imp_congr_left (mem_lookupByPageid (sound.wellFormed.nonneg .dealloced))

theorem Contents.Owns.dealloced {c : Contents} (h : c.Owns x p) (row : c.Row .dealloced y p) :
    y = x := by
  cases h with
  | inl h => exact absurd row (h.2 y)
  | inr h =>
    cases h with
    | inl h => exact (h.2.2 y).mp row
    | inr h => exact (h.2 y).mp row

theorem owner_room (sound : ap.Sound) (own : ⟨x, room, p⟩ ∈ ap.pageOwners.primary) :
    ap.contents.space p = some room ∧ canXidAllocFromPage ap x p := by
  have shown := ((sound.valid.shows p).owner x room).mp (owner_eq_some_iff.mpr own)
  exact ⟨shown.1, (canXidAllocFromPage_iff sound).mpr fun y row => shown.2.dealloced row⟩

theorem available_room (sound : ap.Sound) (avail : ⟨p, room⟩ ∈ ap.availablePages.primary) :
    ap.contents.space p = some room ∧ canXidAllocFromPage ap x p := by
  have shown := ((sound.valid.shows p).available room).mp (room_eq_some_iff.mpr avail)
  exact ⟨shown.1,
    (canXidAllocFromPage_iff sound).mpr fun y row => absurd row (shown.2 .dealloced y)⟩

theorem pageOwnersLookup_spec (x : Int) (fs : Nat) (sound : ap.Sound)
    (nonneg : ∀ p room, ap.contents.space p = some room → 0 ≤ p) :
    (pageOwnersLookupByXidFreespace ap x fs = some none ∧
        ∀ r ∈ ap.pageOwners.primary, r.xid = x → r.freespace < fs) ∨
      ∃ p room, pageOwnersLookupByXidFreespace ap x fs = some (some p) ∧
        ⟨x, room, p⟩ ∈ ap.pageOwners.primary ∧ fs ≤ room ∧
        ∀ r ∈ ap.pageOwners.primary, r.xid = x → fs ≤ r.freespace → room ≤ r.freespace := by
  have agree := sound.wellFormed.owners
  have above : ∀ r ∈ ap.pageOwners.primary, r.xid = x → fs ≤ r.freespace →
      toLex (x, toLex (fs, 0)) ≤ PageOwner.keyXidFreespacePageid r := by
    intro r mem mine enough
    have low := nonneg r.pageid r.freespace (owner_room sound mem).1
    refine toLex_le_toLex.mpr (.inr ⟨mine.symm, ?_⟩)
    exact toLex_le_toLex'.mpr ⟨enough, fun _ => low⟩
  rw [pageOwnersLookupByXidFreespace]
  cases found : ap.pageOwners.secondary.lookupGreaterEq (toLex (x, toLex (fs, 0))) with
  | none =>
    refine .inl ⟨rfl, fun r mem mine => not_le.mp fun enough => ?_⟩
    have below := Tree.lookupGreaterEq_eq_none found ((agree r).mp mem)
    exact absurd (above r mem mine enough) (not_le.mpr below)
  | some tup =>
    have row := Tree.lookupGreaterEq_eq_some found
    have least : ∀ r ∈ ap.pageOwners.primary, r.xid = x → fs ≤ r.freespace →
        PageOwner.keyXidFreespacePageid tup ≤ PageOwner.keyXidFreespacePageid r :=
      fun r mem mine enough =>
        Tree.lookupGreaterEq_least found ((agree r).mp mem) (above r mem mine enough)
    by_cases mine : tup.xid = x
    · have rest := (toLex_le_toLex'.mp row.2).2 mine.symm
      have room : fs ≤ tup.freespace := (toLex_le_toLex'.mp rest).1
      refine .inr ⟨tup.pageid, tup.freespace, ?_, mine ▸ (agree tup).mpr row.1, room, ?_⟩
      · simp only [if_pos mine, if_pos room]
      · intro r mem own enough
        have le := (toLex_le_toLex'.mp (least r mem own enough)).2 (mine.trans own.symm)
        exact (toLex_le_toLex'.mp le).1
    · refine .inl ⟨if_neg mine, fun r mem own => not_le.mp fun enough => ?_⟩
      -- The row that was found is at or behind the key of `x`, and not behind `r`.
      have high := (toLex_le_toLex'.mp row.2).1
      have low := (toLex_le_toLex'.mp (least r mem own enough)).1
      exact mine (le_antisymm (own ▸ low) high)

theorem availablePagesLookup_spec (fs : Nat) (sound : ap.Sound)
    (nonneg : ∀ p room, ap.contents.space p = some room → 0 ≤ p) :
    (availablePagesLookupByFreespace ap fs = none ∧
        ∀ r ∈ ap.availablePages.primary, r.freespace < fs) ∨
      ∃ p room, availablePagesLookupByFreespace ap fs = some p ∧
        ⟨p, room⟩ ∈ ap.availablePages.primary ∧ fs ≤ room := by
  have agree := sound.wellFormed.available
  rw [availablePagesLookupByFreespace]
  cases found : ap.availablePages.secondary.lookupGreaterEq (toLex (fs, 0)) with
  | none =>
    refine .inl ⟨rfl, fun r mem => not_le.mp fun enough => ?_⟩
    have low := nonneg r.pageid r.freespace (available_room (x := 0) sound mem).1
    have below := Tree.lookupGreaterEq_eq_none found ((agree r).mp mem)
    exact absurd (toLex_le_toLex'.mpr ⟨enough, fun _ => low⟩) (not_le.mpr below)
  | some tup =>
    have row := Tree.lookupGreaterEq_eq_some found
    have room : fs ≤ tup.freespace := (toLex_le_toLex'.mp row.2).1
    exact .inr ⟨tup.pageid, tup.freespace, if_pos room, (agree tup).mpr row.1, room⟩

/-- A page that may be picked for an allocation of `fs` bytes: no other transaction has
deallocated from it, it has the room, and taking from it is not refused. -/
def Suitable (ap : Policy) (x : Int) (fs : Nat) (p : Int) : Prop :=
  (∀ y, ⟨y, p⟩ ∈ ap.xidDealloced.primary → y = x) ∧ (∃ room, ⟨p, room⟩ ∈ ap.allPages ∧ fs ≤ room) ∧
    canXidAllocFromPage ap x p ∧ (0 ≤ x → (allocedFromPage ap x p).isSome)

theorem suitable_of_room (sound : ap.Sound) (low : 0 ≤ p)
    (space : ap.contents.space p = some room) (enough : fs ≤ room)
    (can : canXidAllocFromPage ap x p) : Suitable ap x fs p := by
  refine ⟨(canXidAllocFromPage_iff sound).mp can, ⟨room, room_eq_some_iff.mp space, enough⟩, can, ?_⟩
  intro nonneg
  have bounds : (PolicyOp.allocedFromPage x p).Nonneg := ⟨nonneg, low⟩
  obtain ⟨ap', run, _⟩ := PolicyOp.run_sound sound bounds can
  exact isSome_iff_exists.mpr ⟨ap', run⟩

/-- The page that is picked is suitable. None is picked only if no page of the transaction and no
unused page has the room, and a page of the transaction is preferred, with the least room. -/
theorem pick_suitable_page_complete {ap : Policy} (h : Reached ap) (x : Int) (fs : Nat) :
    ∃ p, pickSuitablePage ap x fs = some p ∧ (p ≠ invalidPage → Suitable ap x fs p) ∧
      (p = invalidPage → (∀ r ∈ ap.pageOwners.primary, r.xid = x → r.freespace < fs) ∧
        ∀ r ∈ ap.availablePages.primary, r.freespace < fs) ∧
      ((∃ r ∈ ap.pageOwners.primary, r.xid = x ∧ fs ≤ r.freespace) →
        ∃ room, ⟨x, room, p⟩ ∈ ap.pageOwners.primary ∧ fs ≤ room ∧
          ∀ r ∈ ap.pageOwners.primary, r.xid = x → fs ≤ r.freespace → room ≤ r.freespace) := by
  have sound := reached_sound h
  have nonneg : ∀ p room, ap.contents.space p = some room → 0 ≤ p := by
    intro p room space
    by_contra neg
    rw [reached_space h (not_le.mp neg)] at space
    cases space
  have valid : ∀ {p : Int}, 0 ≤ p → p ≠ invalidPage := by
    rintro p low rfl
    exact absurd low (by decide)
  rcases pageOwnersLookup_spec x fs sound nonneg with
    ⟨lookup, none⟩ | ⟨p, room, lookup, own, enough, least⟩
  · have noOwner : ¬ ∃ r ∈ ap.pageOwners.primary, r.xid = x ∧ fs ≤ r.freespace := by
      rintro ⟨r, mem, mine, enough⟩
      exact absurd (none r mem mine) (not_lt.mpr enough)
    rcases availablePagesLookup_spec fs sound nonneg with
      ⟨lookup', none'⟩ | ⟨p, room, lookup', avail, enough⟩
    · refine ⟨invalidPage, ?_, fun ne => absurd rfl ne, fun _ => ⟨none, none'⟩, fun some =>
        absurd some noOwner⟩
      simp only [pickSuitablePage, lookup, lookup', bind_eq_bind, bind_some]
    · obtain ⟨space, can⟩ := available_room (x := x) sound avail
      have low := nonneg p room space
      refine ⟨p, ?_, fun _ => suitable_of_room sound low space enough can,
        fun eq => absurd eq (valid low), fun some => absurd some noOwner⟩
      simp only [pickSuitablePage, lookup, lookup', bind_eq_bind, bind_some, if_pos can]
  · obtain ⟨space, can⟩ := owner_room sound own
    have low := nonneg p room space
    refine ⟨p, ?_, fun _ => suitable_of_room sound low space enough can,
      fun eq => absurd eq (valid low), fun _ => ⟨room, own, enough, least⟩⟩
    simp only [pickSuitablePage, lookup, bind_eq_bind, bind_some, if_pos can]

/-- Page 7 belongs to transaction 1, which gets it though page 8 has the least room. -/
theorem pick_suitable_page_complete_owned :
    ∃ ap, Reached ap ∧ pickSuitablePage ap 1 40 = some 7 ∧ Suitable ap 1 40 7 := by
  obtain ⟨ap, run, picked⟩ : ∃ ap,
      [.registerNewPage 7 100, .registerNewPage 8 50, .allocedFromPage 1 7].foldlM PolicyOp.run
        { init with reuseWithinXact := false } = some ap ∧ pickSuitablePage ap 1 40 = some 7 := by
    decide +kernel
  have reached : Reached ap := (Reached.fresh false).calls (by simp [PolicyOp.Nonneg]) run
  obtain ⟨p, picked', suitable, _⟩ := pick_suitable_page_complete reached 1 40
  cases picked.symm.trans picked'
  exact ⟨ap, reached, picked, suitable (by decide)⟩

/-- A page with a negative identifier and just the room asked for is not found. -/
theorem negative_page_not_picked :
    ∃ ap, PolicyOp.run init (.registerNewPage (-5) 100) = some ap ∧
      ⟨-5, 100⟩ ∈ ap.availablePages.primary ∧ pickSuitablePage ap 1 100 = some invalidPage := by
  obtain ⟨ap, run, rows, picked⟩ : ∃ ap, PolicyOp.run init (.registerNewPage (-5) 100) = some ap ∧
      ⟨-5, 100⟩ ∈ ap.availablePages.primary.rows ∧ pickSuitablePage ap 1 100 = some invalidPage := by
    decide +kernel
  exact ⟨ap, run, rows, picked⟩

end Stasis.AllocationPolicy
