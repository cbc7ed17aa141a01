import Stasis.AllocationPolicy

/-!
What an allocation policy holds, and how its functions change it.

The trees of a policy are read as functions of the page. On a policy whose two orders
agree no assertion of the helpers fails, and each of them is an update at one page.
-/
namespace Stasis.AllocationPolicy
open OrderedTable Function Tree Option

section Helpers
variable {T K L : Type} [LinearOrder K] [LinearOrder L] {key : T → K} {key2 : T → L}

def Indexed.Agree (t : Indexed key key2) : Prop := ∀ r, r ∈ t.primary ↔ r ∈ t.secondary

theorem voidDoubleRemove_spec [DecidableEq T] {t : Indexed key key2} (agree : t.Agree) (val : T) :
    ∃ t', voidDoubleRemove val t = some ((t.primary.find (key val)).isSome, t') ∧ t'.Agree ∧
      ∀ k, t'.primary.find k = if k = key val then none else t.primary.find k := by
  cases h : t.primary.find (key val) with
  | none =>
    refine ⟨t, by rw [voidDoubleRemove, h]; rfl, agree, fun k => ?_⟩
    split
    · next eq => rw [eq, h]
    · rfl
  | some full =>
    have held := find_eq_some_iff.mp h
    have other : t.secondary.find (key2 full) = some full :=
      find_eq_some_iff.mpr ⟨(agree full).mp held.1, rfl⟩
    refine ⟨⟨t.primary.delete (key val), t.secondary.delete (key2 full)⟩, ?_, ?_,
      find_delete t.primary (key val)⟩
    · rw [voidDoubleRemove, h]
      exact if_pos other
    · intro r
      have out : r ∈ t.primary → (key r = key val ↔ key2 r = key2 full) := fun mem =>
        ⟨fun eq => congrArg key2 (key_inj mem held.1 (eq.trans held.2.symm)),
          fun eq => (congrArg key (key_inj ((agree r).mp mem) ((agree full).mp held.1)
            eq)).trans held.2⟩
      rw [mem_delete, mem_delete, ← agree r]
      exact and_congr_right fun mem => not_congr (out mem)

theorem voidDoubleAdd_spec {t : Indexed key key2} (agree : t.Agree)
    (refines : ∀ r s, key2 r = key2 s → key r = key s) (val : T)
    (new : t.primary.find (key val) = none) :
    ∃ t', voidDoubleAdd val t = some t' ∧ t'.Agree ∧
      ∀ k, t'.primary.find k = if k = key val then some val else t.primary.find k := by
  have new2 : t.secondary.find (key2 val) = none :=
    find_eq_none_iff.mpr fun r mem eq =>
      find_eq_none_iff.mp new r ((agree r).mpr mem) (refines r val eq)
  refine ⟨⟨t.primary.insert val, t.secondary.insert val⟩, ?_, ?_, find_insert new⟩
  · exact if_pos ⟨isNone_iff_eq_none.mpr new, isNone_iff_eq_none.mpr new2⟩
  · intro r
    rw [mem_insert new, mem_insert new2, agree r]

theorem voidSingleAdd_find (val : T) (a : Tree key) (k : K) :
    (voidSingleAdd val a).2.find k = if k = key val then some val else a.find k := by
  have new : (a.delete (key val)).find (key val) = none := by rw [find_delete, if_pos rfl]
  refine (find_insert new k).trans ?_
  rw [find_delete]
  split <;> rfl

end Helpers

/-- The tables and views of a policy, as functions of the page. -/
@[ext] structure Contents where
  space : Int → Option Nat
  available : Int → Option Nat
  owner : Int → Option (Int × Nat)
  tables : Use → XidTable
  reuse : Bool

def Policy.contents (ap : Policy) : Contents where
  space := allPagesLookupByPageid ap
  available pageid := (ap.availablePages.primary.find pageid).map (·.freespace)
  owner := pageOwnersLookupByPageid ap
  tables := ap.table
  reuse := ap.reuseWithinXact

def XidTable.Nonneg (t : XidTable) : Prop := ∀ r ∈ t.primary, 0 ≤ r.xid ∧ 0 ≤ r.pageid

/-- Both orders hold the same rows, and identifiers are not negative. -/
structure Policy.WellFormed (ap : Policy) : Prop where
  available : ap.availablePages.Agree
  owners : ap.pageOwners.Agree
  tables : ∀ use, (ap.table use).Agree
  nonneg : ∀ use, (ap.table use).Nonneg

theorem map_ite_find {T A : Type} {f : T → A} {g : Int → Option T} {o : Option T}
    {h : Int → Option T} (eq : ∀ k, h k = if k = p then o else g k) :
    (fun k => (h k).map f) = update (fun k => (g k).map f) p (o.map f) := by
  funext k
  rw [eq k, update_apply]
  split <;> rfl

section
variable {ap : Policy} (wf : ap.WellFormed)
include wf

theorem availablePagesRemove_spec (p : Int) :
    ∃ ap', availablePagesRemove ap p = some ((ap.contents.available p).isSome, ap') ∧
      ap'.WellFormed ∧
      ap'.contents = { ap.contents with available := update ap.contents.available p none } := by
  obtain ⟨t, run, agree, find⟩ := voidDoubleRemove_spec wf.available ⟨p, 0⟩
  refine ⟨{ ap with availablePages := t }, ?_, { wf with available := agree }, ?_⟩
  · rw [availablePagesRemove, run]
    exact congrArg some (Prod.ext isSome_map.symm rfl)
  · exact Contents.ext rfl (map_ite_find find) rfl rfl rfl

theorem availablePagesAdd_spec (p : Int) (fs : Nat) :
    ∃ ap', availablePagesAdd ap p fs = some ((ap.contents.available p).isSome, ap') ∧
      ap'.WellFormed ∧
      ap'.contents = { ap.contents with available := update ap.contents.available p (some fs) } := by
  obtain ⟨ap1, removed, wf1, c1⟩ := availablePagesRemove_spec wf p
  have gone : ap1.contents.available p = none := by rw [c1]; exact update_self ..
  obtain ⟨t, added, agree, find⟩ := voidDoubleAdd_spec wf1.available
    (fun r s eq => (Prod.mk.inj (toLex_inj.mp eq)).2) ⟨p, fs⟩ (map_eq_none_iff.mp gone)
  refine ⟨{ ap1 with availablePages := t }, ?_, { wf1 with available := agree }, ?_⟩
  · rw [availablePagesAdd, removed]
    exact congrArg (Option.bind · _) added
  · have added : Policy.contents { ap1 with availablePages := t } =
        { ap1.contents with available := update ap1.contents.available p (some fs) } :=
      Contents.ext rfl (map_ite_find find) rfl rfl rfl
    rw [added, c1, update_idem]

theorem pageOwnersRemove_spec (p : Int) :
    ∃ ap', pageOwnersRemove ap p = some ((ap.contents.owner p).isSome, ap') ∧
      ap'.WellFormed ∧
      ap'.contents = { ap.contents with owner := update ap.contents.owner p none } := by
  obtain ⟨t, run, agree, find⟩ := voidDoubleRemove_spec wf.owners ⟨invalidXid, 0, p⟩
  refine ⟨{ ap with pageOwners := t }, ?_, { wf with owners := agree }, ?_⟩
  · rw [pageOwnersRemove, run]
    exact congrArg some (Prod.ext isSome_map.symm rfl)
  · exact Contents.ext rfl rfl (map_ite_find find) rfl rfl

theorem pageOwnersAdd_spec (x : Int) (fs : Nat) (p : Int) :
    ∃ ap', pageOwnersAdd ap x fs p = some ((ap.contents.owner p).isSome, ap') ∧
      ap'.WellFormed ∧
      ap'.contents = { ap.contents with owner := update ap.contents.owner p (some (x, fs)) } := by
  obtain ⟨ap1, removed, wf1, c1⟩ := pageOwnersRemove_spec wf p
  have gone : ap1.contents.owner p = none := by rw [c1]; exact update_self ..
  obtain ⟨t, added, agree, find⟩ := voidDoubleAdd_spec wf1.owners
    (fun r s eq => (Prod.mk.inj (toLex_inj.mp (Prod.mk.inj (toLex_inj.mp eq)).2)).2)
    ⟨x, fs, p⟩ (map_eq_none_iff.mp gone)
  refine ⟨{ ap1 with pageOwners := t }, ?_, { wf1 with owners := agree }, ?_⟩
  · rw [pageOwnersAdd, removed]
    exact congrArg (Option.bind · _) added
  · have added : Policy.contents { ap1 with pageOwners := t } =
        { ap1.contents with owner := update ap1.contents.owner p (some (x, fs)) } :=
      Contents.ext rfl rfl (map_ite_find find) rfl rfl
    rw [added, c1, update_idem]

end

theorem allPages_contents (ap : Policy) (p : Int) (fs : Nat) :
    Policy.contents { ap with allPages := (voidSingleAdd ⟨p, fs⟩ ap.allPages).2 } =
      { ap.contents with space := update ap.contents.space p (some fs) } := by
  have find := voidSingleAdd_find (⟨p, fs⟩ : PageFreespace) ap.allPages
  exact Contents.ext (map_ite_find (f := PageFreespace.freespace) find) rfl rfl rfl rfl

theorem allPages_existed (ap : Policy) (p : Int) (fs : Nat) :
    (voidSingleAdd ⟨p, fs⟩ ap.allPages).1 = (ap.contents.space p).isSome :=
  isSome_map.symm

theorem allPagesAdd_spec (wf : ap.WellFormed) (p : Int) (fs : Nat)
    (unseen : ap.contents.space p = none → ap.contents.available p = none) :
    ∃ ap', allPagesAdd ap p fs = some ((ap.contents.space p).isSome, ap') ∧ ap'.WellFormed ∧
      ap'.contents = { ap.contents with
        space := update ap.contents.space p (some fs)
        available := if (ap.contents.space p).isSome then ap.contents.available
          else update ap.contents.available p (some fs) } := by
  have wf1 : Policy.WellFormed { ap with allPages := (voidSingleAdd ⟨p, fs⟩ ap.allPages).2 } :=
    { wf with }
  cases seen : ap.contents.space p with
  | some old =>
    refine ⟨_, ?_, wf1, allPages_contents ap p fs⟩
    rw [allPagesAdd]
    simp only [allPages_existed, seen]
    rfl
  | none =>
    obtain ⟨ap2, added, wf2, c2⟩ := availablePagesAdd_spec wf1 p fs
    refine ⟨ap2, ?_, wf2, ?_⟩
    · rw [allPages_contents] at added
      rw [allPagesAdd]
      simp only [allPages_existed, seen, added, unseen seen]
      rfl
    · rw [c2, allPages_contents]
      rfl

/-- The room of a page changes in the table and in the views that hold the page. -/
def Contents.updateFreespace (c : Contents) (p : Int) (fs : Nat) : Contents :=
  { c with
    space := update c.space p (some fs)
    available := update c.available p ((c.available p).map fun _ => fs)
    owner := update c.owner p ((c.owner p).map fun o => (o.1, fs)) }

theorem allPagesSetFreespace_spec (wf : ap.WellFormed) (p : Int) (fs : Nat)
    (seen : (ap.contents.space p).isSome)
    (one : ap.contents.available p = none ∨ ap.contents.owner p = none) :
    ∃ ap', allPagesSetFreespace ap p fs = some ap' ∧ ap'.WellFormed ∧
      ap'.contents = ap.contents.updateFreespace p fs := by
  have wf1 : Policy.WellFormed { ap with allPages := (voidSingleAdd ⟨p, fs⟩ ap.allPages).2 } :=
    { wf with }
  have c1 := allPages_contents ap p fs
  have existed : (voidSingleAdd ⟨p, fs⟩ ap.allPages).1 = true :=
    (allPages_existed ap p fs).trans seen
  simp only [allPagesSetFreespace, existed, if_true]
  generalize Policy.mk _ _ (voidSingleAdd ⟨p, fs⟩ ap.allPages).2 _ _ _ = ap1 at wf1 c1 ⊢
  obtain ⟨ap2, removed, wf2, c2⟩ := availablePagesRemove_spec wf1 p
  have owner2 : ap2.contents.owner = ap.contents.owner := by rw [c2, c1]
  rw [removed, c1]
  cases avail : ap.contents.available p with
  | some old =>
    have unowned := one.resolve_left (by rw [avail]; exact some_ne_none old)
    obtain ⟨ap3, added, wf3, c3⟩ := availablePagesAdd_spec wf2 p fs
    have lookup : pageOwnersLookupByPageid ap3 p = none := by
      change ap3.contents.owner p = none
      rw [c3, owner2, unowned]
    refine ⟨ap3, ?_, wf3, ?_⟩
    · simp only [isSome_some, if_true, added, map_some,
        bind_eq_bind, bind_some, lookup]
    · rw [c3, c2, c1]
      refine Contents.ext rfl ?_ ?_ rfl rfl
      · simp only [Contents.updateFreespace, update_idem, avail, map_some]
      · simp only [Contents.updateFreespace, unowned, map_none]
        rw [← unowned, update_eq_self]
  | none =>
    cases owned : ap.contents.owner p with
    | none =>
      have lookup : pageOwnersLookupByPageid ap2 p = none := by
        change ap2.contents.owner p = none
        rw [owner2, owned]
      refine ⟨ap2, ?_, wf2, ?_⟩
      · simp only [isSome_none, Bool.false_eq_true, if_false, bind_eq_bind,
          bind_some, lookup]
      · rw [c2, c1]
        refine Contents.ext rfl ?_ ?_ rfl rfl
        · simp only [Contents.updateFreespace, avail, map_none]
        · simp only [Contents.updateFreespace, owned, map_none]
          rw [← owned, update_eq_self]
    | some o =>
      obtain ⟨ap3, added, wf3, c3⟩ := pageOwnersAdd_spec wf2 o.1 fs p
      have lookup : pageOwnersLookupByPageid ap2 p = some o := by
        change ap2.contents.owner p = some o
        rw [owner2, owned]
      refine ⟨ap3, ?_, wf3, ?_⟩
      · simp only [isSome_none, Bool.false_eq_true, if_false, bind_eq_bind,
          bind_some, lookup, added]
      · rw [c3, c2, c1]
        refine Contents.ext rfl ?_ ?_ rfl rfl
        · simp only [Contents.updateFreespace, avail, map_none]
        · simp only [Contents.updateFreespace, owned, map_some]

/-- A page that was registered before gets new room. -/
def Contents.register (c : Contents) (p : Int) (fs : Nat) : Contents :=
  if (c.space p).isSome then c.updateFreespace p fs
  else { c with
    space := update c.space p (some fs)
    available := update c.available p (some fs) }

theorem registerNewPage_spec (wf : ap.WellFormed) (p : Int) (fs : Nat)
    (unseen : ap.contents.space p = none → ap.contents.available p = none)
    (one : ap.contents.available p = none ∨ ap.contents.owner p = none) :
    ∃ ap', registerNewPage ap p fs = some ap' ∧ ap'.WellFormed ∧
      ap'.contents = ap.contents.register p fs := by
  obtain ⟨ap1, added, wf1, c1⟩ := allPagesAdd_spec wf p fs unseen
  rw [registerNewPage, added]
  cases seen : (ap.contents.space p).isSome with
  | false =>
    refine ⟨ap1, rfl, wf1, ?_⟩
    simp only [c1, Contents.register, seen, Bool.false_eq_true, if_false]
  | true =>
    simp only [seen, if_true] at c1
    obtain ⟨ap2, set, wf2, c2⟩ := allPagesSetFreespace_spec wf1 p fs
      (by rw [c1]; simp) (by rw [c1]; exact one)
    refine ⟨ap2, set, wf2, ?_⟩
    simp only [c2, c1, Contents.register, Contents.updateFreespace, seen, if_true, update_idem]

/-- The owner of a page whose rows name these transactions. -/
def ownerOf (reuse : Bool) : List Int → List Int → Option Int
  | [x], [] => some x
  | [x], [y] => if reuse ∧ x = y then some x else none
  | [], [y] => some y
  | _, _ => none

def Contents.xids (c : Contents) (use : Use) (p : Int) : List Int :=
  xidAllocedDeallocedHelperLookupByPageid (c.tables use).primary p

/-- A page with room `fs` as its rows show it in the views. -/
def Contents.show (c : Contents) (p : Int) (fs : Nat) : Contents :=
  { c with
    available := update c.available p
      (if c.xids .alloced p = [] ∧ c.xids .dealloced p = [] then some fs else none)
    owner := update c.owner p
      ((ownerOf c.reuse (c.xids .alloced p) (c.xids .dealloced p)).map fun x => (x, fs)) }

section
variable {ap : Policy} (wf : ap.WellFormed)
include wf

theorem setAvailable_spec (fs : Nat) (p : Int) :
    ∃ ap', setAvailable ap fs p = some ap' ∧ ap'.WellFormed ∧
      ap'.contents = { ap.contents with
        available := update ap.contents.available p (some fs)
        owner := update ap.contents.owner p none } := by
  obtain ⟨ap1, removed, wf1, c1⟩ := pageOwnersRemove_spec wf p
  obtain ⟨ap2, added, wf2, c2⟩ := availablePagesAdd_spec wf1 p fs
  refine ⟨ap2, ?_, wf2, by rw [c2, c1]⟩
  simp only [setAvailable, removed, bind_eq_bind, bind_some, added]

theorem setOwner_spec (x : Int) (fs : Nat) (p : Int) :
    ∃ ap', setOwner ap x fs p = some ap' ∧ ap'.WellFormed ∧
      ap'.contents = { ap.contents with
        available := update ap.contents.available p none
        owner := update ap.contents.owner p (some (x, fs)) } := by
  obtain ⟨ap1, added, wf1, c1⟩ := pageOwnersAdd_spec wf x fs p
  obtain ⟨ap2, removed, wf2, c2⟩ := availablePagesRemove_spec wf1 p
  refine ⟨ap2, ?_, wf2, by rw [c2, c1]⟩
  simp only [setOwner, removed, bind_eq_bind, bind_some, added]

theorem setShared_spec (p : Int) :
    ∃ ap', setShared ap p = some ap' ∧ ap'.WellFormed ∧
      ap'.contents = { ap.contents with
        available := update ap.contents.available p none
        owner := update ap.contents.owner p none } := by
  obtain ⟨ap1, dropped, wf1, c1⟩ := pageOwnersRemove_spec wf p
  obtain ⟨ap2, removed, wf2, c2⟩ := availablePagesRemove_spec wf1 p
  refine ⟨ap2, ?_, wf2, by rw [c2, c1]⟩
  simp only [setShared, removed, bind_eq_bind, bind_some, dropped]

theorem setViews_spec (fs : Nat) (p : Int) :
    ∃ ap', setViews ap fs p = some ap' ∧ ap'.WellFormed ∧
      ap'.contents = ap.contents.show p fs := by
  have alloced : ap.contents.xids .alloced p = xidAllocedLookupByPageid ap p := rfl
  have dealloced : ap.contents.xids .dealloced p = xidDeallocedLookupByPageid ap p := rfl
  have reuse : ap.reuseWithinXact = ap.contents.reuse := rfl
  rw [Contents.show, alloced, dealloced, setViews, reuse]
  generalize xidAllocedLookupByPageid ap p = as
  generalize xidDeallocedLookupByPageid ap p = ds
  match as, ds with
  | [], [] => simpa [ownerOf] using setAvailable_spec wf fs p
  | [x], [] => simpa [ownerOf] using setOwner_spec wf x fs p
  | [x], [y] =>
    by_cases same : ap.contents.reuse = true ∧ x = y
    · simpa only [ownerOf, if_pos same, reduceCtorEq, false_and, if_false, map_some]
        using setOwner_spec wf x fs p
    · simpa only [ownerOf, if_neg same, reduceCtorEq, false_and, if_false, map_none]
        using setShared_spec wf p
  | [], [y] => simpa [ownerOf] using setOwner_spec wf y fs p
  | [], _ :: _ :: _ | [_], _ :: _ :: _ | _ :: _ :: _, _ =>
    simpa [ownerOf] using setShared_spec wf p

end

/-- A page, with no room if it was never registered, as its rows show it in the views. -/
def Contents.refresh (c : Contents) (p : Int) : Contents :=
  { c with space := update c.space p (some ((c.space p).getD 0)) }.show p ((c.space p).getD 0)

theorem updateViewsForPage_spec (wf : ap.WellFormed) (p : Int)
    (unseen : ap.contents.space p = none → ap.contents.available p = none) :
    ∃ ap', updateViewsForPage ap p = some ap' ∧ ap'.WellFormed ∧
      ap'.contents = ap.contents.refresh p := by
  rw [updateViewsForPage]
  cases seen : ap.contents.space p with
  | some fs =>
    have lookup : allPagesLookupByPageid ap p = some fs := seen
    obtain ⟨ap', run, wf', c'⟩ := setViews_spec wf fs p
    refine ⟨ap', by rw [lookup]; exact run, wf', ?_⟩
    rw [c', Contents.refresh, seen, getD_some, ← seen, update_eq_self]
  | none =>
    have lookup : allPagesLookupByPageid ap p = none := seen
    obtain ⟨ap1, registered, wf1, c1⟩ := registerNewPage_spec wf p 0 unseen (.inl (unseen seen))
    obtain ⟨ap', run, wf', c'⟩ := setViews_spec wf1 0 p
    refine ⟨ap', by rw [lookup]; simp only [registered]; exact run, wf', ?_⟩
    rw [c', c1, Contents.register, seen]
    simp only [Contents.refresh, Contents.show, seen, isSome_none, Bool.false_eq_true,
      if_false, getD_none, update_idem]
    rfl

end Stasis.AllocationPolicy
