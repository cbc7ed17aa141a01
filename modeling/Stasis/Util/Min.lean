import Stasis.Library.CompareList

/-!
The minimum of a changing set of log sequence numbers.

The members are handles, pointers to numbers that do not change while they are in the
set. Each thread remembers the entry of the array it used last, and the minimum is
remembered until its handle is removed.
-/
namespace Stasis
open List
open Option hiding or_assoc

/-- A pointer and the number it points to. -/
@[ext] structure Handle where
  ptr : Nat
  lsn : Int
deriving DecidableEq, Repr

structure AggregateMin where
  vals : List (Option Handle)
  key : Nat → Option Nat
  memo : Option Handle

namespace AggregateMin

def init : AggregateMin := ⟨[], fun _ => none, none⟩

/-- The first free entry of the array. -/
def firstFree (vals : List (Option Handle)) : Option Nat := vals.findIdx? (·.isNone)

def add (min : AggregateMin) (thread : Nat) (a : Handle) : AggregateMin :=
  let memo := min.memo.map fun m => if m.lsn > a.lsn then a else m
  match min.key thread with
  | some p =>
    if min.vals[p]? = some none then { min with vals := min.vals.set p (some a), memo := memo }
    else addAnywhere memo
  | none => addAnywhere memo
where
  addAnywhere (memo : Option Handle) : AggregateMin :=
    let key i := fun t => if t = thread then some i else min.key t
    match firstFree min.vals with
    | some i => ⟨min.vals.set i (some a), key i, memo⟩
    | none => ⟨min.vals ++ [some a], key min.vals.length, memo⟩

def entryIs (lsn : Int) : Option Handle → Bool
  | some h => h.lsn = lsn
  | none => false

/-- `none` where the source aborts. -/
def remove (min : AggregateMin) (thread : Nat) (a : Handle) : Option AggregateMin :=
  let memo := if entryIs a.lsn min.memo then none else min.memo
  match min.key thread with
  | some p =>
    if (min.vals[p]?).any (entryIs a.lsn) then
      some { min with vals := min.vals.set p none, memo := memo }
    else removeAnywhere memo
  | none => removeAnywhere memo
where
  removeAnywhere (memo : Option Handle) : Option AggregateMin :=
    match min.vals.findIdx? (entryIs a.lsn) with
    | some i =>
      if min.vals[i]? = some (some a) then some { min with vals := min.vals.set i none, memo := memo }
      else none
    | none => none

/-- One round of the search for the least member. -/
def lesser (memo : Option Handle) : Option Handle → Option Handle
  | none => memo
  | some h =>
    match memo with
    | none => some h
    | some m => if h.lsn < m.lsn then some h else some m

def compute (min : AggregateMin) : Option Handle × AggregateMin :=
  match min.memo with
  | some m => (some m, min)
  | none =>
    let memo := min.vals.foldl lesser none
    (memo, { min with memo := memo })

/-- Entry `i` of the array holds `h`. -/
def At (min : AggregateMin) (i : Nat) (h : Handle) : Prop := min.vals[i]? = some (some h)

def Member (min : AggregateMin) (h : Handle) : Prop := some h ∈ min.vals

variable {min : AggregateMin} {h : Handle} {s : Handle → Prop}

theorem member_iff : min.Member h ↔ ∃ i, min.At i h :=
  mem_iff_getElem?

/-- Members point to different numbers, and what is remembered is the least member. -/
structure WellFormed (min : AggregateMin) : Prop where
  distinct : ∀ i j g h, min.At i g → min.At j h → g.lsn = h.lsn → i = j
  memo : ∀ m, min.memo = some m → min.Member m ∧ ∀ h, min.Member h → m.lsn ≤ h.lsn

theorem init_wellFormed : init.WellFormed :=
  ⟨fun i j g h hg => absurd hg (by simp [At, init]), fun m hm => absurd hm (by simp [init])⟩

theorem not_member_init (h : Handle) : ¬init.Member h := not_mem_nil

theorem at_set (inside : i < min.vals.length) :
    (min.vals.set i o)[j]? = some (some h) ↔ if j = i then o = some h else min.At j h := by
  rw [getElem?_set]
  by_cases same : i = j
  · rw [if_pos same, if_pos inside, if_pos same.symm, some_inj]
  · rw [if_neg same, if_neg fun eq => same eq.symm]
    exact Iff.rfl

theorem add_at (min : AggregateMin) (thread : Nat) (a : Handle) :
    (min.add thread a).memo = (min.memo.map fun m => if m.lsn > a.lsn then a else m) ∧
      ∃ i, (∀ h, ¬min.At i h) ∧
        ∀ j h, (min.add thread a).At j h ↔ if j = i then a = h else min.At j h := by
  have put : ∀ i, min.vals[i]? = some none → (∀ h, ¬min.At i h) ∧ ∀ j h,
      (min.vals.set i (some a))[j]? = some (some h) ↔ if j = i then a = h else min.At j h := by
    intro i free
    have inside : i < min.vals.length := (List.getElem?_eq_some_iff.mp free).1
    refine ⟨fun h held => ?_, fun j h => ?_⟩
    · rw [At, free] at held
      exact absurd (some.inj held) (some_ne_none h).symm
    · rw [at_set inside, some_inj]
  have anywhere : ∀ memo, (add.addAnywhere min thread a memo).memo = memo ∧
      ∃ i, (∀ h, ¬min.At i h) ∧ ∀ j h,
        (add.addAnywhere min thread a memo).At j h ↔ if j = i then a = h else min.At j h := by
    intro memo
    rw [add.addAnywhere]
    cases found : firstFree min.vals with
    | some i =>
      have free : min.vals[i]? = some none := by
        have h := findIdx?_eq_some_iff_getElem.mp found
        rw [getElem?_eq_getElem h.1, isNone_iff_eq_none.mp h.2.1]
      exact ⟨rfl, i, put i free⟩
    | none =>
      refine ⟨rfl, min.vals.length, fun h held => ?_, fun j h => ?_⟩
      · rw [At, getElem?_eq_none le_rfl] at held
        exact absurd held (some_ne_none _).symm
      · by_cases same : j = min.vals.length
        · rw [if_pos same, same, At, getElem?_concat_length, some_inj, some_inj]
        · rw [if_neg same, At, At, getElem?_append]
          split
          · rfl
          · rw [getElem?_eq_none (by simp; omega), getElem?_eq_none (by omega)]
  rw [add]
  cases slot : min.key thread with
  | none => exact anywhere _
  | some p =>
    simp only
    split
    · next free => exact ⟨rfl, p, put p free⟩
    · exact anywhere _

theorem add_member : (min.add thread a).Member h ↔ h = a ∨ min.Member h := by
  obtain ⟨_, i, free, entries⟩ := add_at min thread a
  rw [member_iff, member_iff]
  constructor
  · intro ⟨j, held⟩
    have entry := (entries j h).mp held
    split at entry
    · exact .inl entry.symm
    · exact .inr ⟨j, entry⟩
  · intro held
    cases held with
    | inl eq => exact ⟨i, (entries i h).mpr (by rw [if_pos rfl, eq])⟩
    | inr old =>
      obtain ⟨j, old⟩ := old
      have other : j ≠ i := fun same => free h (same ▸ old)
      exact ⟨j, (entries j h).mpr (by rw [if_neg other]; exact old)⟩

theorem add_wellFormed (wf : min.WellFormed) (thread : Nat)
    (new : ∀ h, min.Member h → h.lsn ≠ a.lsn) : (min.add thread a).WellFormed := by
  obtain ⟨memo, i, free, entries⟩ := add_at min thread a
  constructor
  · intro j k g h hg hh eq
    have old : ∀ {j h}, min.At j h → h.lsn ≠ a.lsn := fun held => new _ (member_iff.mpr ⟨_, held⟩)
    rw [entries] at hg hh
    split at hg
    · next hj =>
      split at hh
      · next hk => exact hj.trans hk.symm
      · exact absurd (hg ▸ eq.symm) (old hh)
    · split at hh
      · exact absurd (hh ▸ eq) (old hg)
      · exact wf.distinct j k g h hg hh eq
  · intro m hm
    rw [memo, map_eq_some_iff] at hm
    obtain ⟨m0, held, eq⟩ := hm
    have least := wf.memo m0 held
    simp only [add_member]
    split at eq
    · next gt =>
      refine ⟨.inl eq.symm, fun h member => ?_⟩
      cases member with
      | inl same => rw [same, eq]
      | inr old => exact eq ▸ le_trans (le_of_lt gt) (least.2 h old)
    · next ge =>
      refine ⟨.inr (eq ▸ least.1), fun h member => ?_⟩
      cases member with
      | inl same => rw [same, ← eq]; exact not_lt.mp ge
      | inr old => exact eq ▸ least.2 h old

theorem entryIs_eq_true : entryIs lsn o = true ↔ ∃ h, o = some h ∧ h.lsn = lsn := by
  cases o with
  | none => simp [entryIs]
  | some h => simp [entryIs]

theorem remove_at (wf : min.WellFormed) (thread : Nat) (member : min.Member a) :
    ∃ min' i, min.remove thread a = some min' ∧ min.At i a ∧
      (∀ j h, min'.At j h ↔ if j = i then none = some h else min.At j h) ∧
      min'.memo = if entryIs a.lsn min.memo then none else min.memo := by
  obtain ⟨i, held⟩ := member_iff.mp member
  have inside : i < min.vals.length := (List.getElem?_eq_some_iff.mp held).1
  have anywhere : ∀ memo, remove.removeAnywhere min a memo =
      some { min with vals := min.vals.set i none, memo := memo } := by
    intro memo
    rw [remove.removeAnywhere]
    cases found : min.vals.findIdx? (entryIs a.lsn) with
    | none =>
      have none := findIdx?_eq_none_iff.mp found (some a) (mem_of_getElem? held)
      exact absurd (none.symm.trans (entryIs_eq_true.mpr ⟨a, rfl, rfl⟩)) Bool.false_ne_true
    | some k =>
      have h := findIdx?_eq_some_iff_getElem.mp found
      obtain ⟨g, entry, eq⟩ := entryIs_eq_true.mp h.2.1
      have here : min.At k g := by rw [At, getElem?_eq_getElem h.1, entry]
      have same := wf.distinct k i g a here held eq
      rw [same]
      exact if_pos held
  refine ⟨{ min with
    vals := min.vals.set i none
    memo := if entryIs a.lsn min.memo then none else min.memo }, i, ?_, held,
    fun j h => at_set inside, rfl⟩
  rw [remove]
  cases slot : min.key thread with
  | none => exact anywhere _
  | some p =>
    simp only
    split
    · next here =>
      obtain ⟨o, entry, eq⟩ := (any_eq_true _ _).mp here
      obtain ⟨g, some, eq⟩ := entryIs_eq_true.mp eq
      have same := wf.distinct p i g a (by rw [At, entry, some]) held eq
      rw [same]
    · exact anywhere _

theorem remove_spec (wf : min.WellFormed) (thread : Nat) (member : min.Member a) :
    ∃ min', min.remove thread a = some min' ∧ min'.WellFormed ∧
      ∀ h, min'.Member h ↔ min.Member h ∧ h ≠ a := by
  obtain ⟨min', i, run, held, entries, memo⟩ := remove_at wf thread member
  have cleared : ∀ {j h}, min'.At j h ↔ j ≠ i ∧ min.At j h := by
    intro j h
    rw [entries]
    split
    · next same => exact iff_of_false (some_ne_none h).symm fun both => both.1 same
    · next other => exact (and_iff_right other).symm
  have members : ∀ h, min'.Member h ↔ min.Member h ∧ h ≠ a := by
    intro h
    rw [member_iff, member_iff]
    constructor
    · intro ⟨j, at'⟩
      have old := cleared.mp at'
      refine ⟨⟨j, old.2⟩, fun eq => old.1 ?_⟩
      exact wf.distinct j i h a old.2 held (congrArg Handle.lsn eq)
    · intro ⟨⟨j, old⟩, ne⟩
      refine ⟨j, cleared.mpr ⟨fun same => ne ?_, old⟩⟩
      rw [At, same, held] at old
      exact (some.inj (some.inj old)).symm
  refine ⟨min', run, ⟨?_, ?_⟩, members⟩
  · exact fun j k g h hg hh eq => wf.distinct j k g h (cleared.mp hg).2 (cleared.mp hh).2 eq
  · intro m hm
    rw [memo] at hm
    split at hm
    · exact absurd hm (some_ne_none m).symm
    · next kept =>
      have least := wf.memo m hm
      have other : m ≠ a := fun eq => kept (entryIs_eq_true.mpr ⟨m, hm, congrArg Handle.lsn eq⟩)
      exact ⟨(members m).mpr ⟨least.1, other⟩, fun h member => least.2 h ((members h).mp member).1⟩

/-- A handle of `s` with the least number, if `s` has any. -/
def Least (s : Handle → Prop) : Option Handle → Prop
  | none => ∀ h, ¬s h
  | some m => s m ∧ ∀ h, s h → m.lsn ≤ h.lsn

theorem Least.congr {s' : Handle → Prop} (h : Least s o) (same : ∀ h, s' h ↔ s h) : Least s' o := by
  cases o with
  | none => exact fun g held => h g ((same g).mp held)
  | some m => exact ⟨(same m).mpr h.1, fun g held => h.2 g ((same g).mp held)⟩

theorem lesser_least {memo : Option Handle} (least : Least s memo) (o : Option Handle) :
    Least (fun h => s h ∨ o = some h) (lesser memo o) := by
  cases o with
  | none => exact least.congr fun h => or_iff_left (some_ne_none h).symm
  | some g =>
    cases memo with
    | none =>
      refine ⟨.inr rfl, fun h held => held.elim (fun old => absurd old (least h)) fun eq => ?_⟩
      exact Int.le_of_eq (congrArg Handle.lsn (some.inj eq))
    | some m =>
      simp only [lesser]
      split
      · next lt =>
        refine ⟨.inr rfl, fun h held => held.elim (fun old => ?_) fun eq => ?_⟩
        · exact le_trans (le_of_lt lt) (least.2 h old)
        · exact Int.le_of_eq (congrArg Handle.lsn (some.inj eq))
      · next ge =>
        refine ⟨.inl least.1, fun h held => held.elim (least.2 h) fun eq => ?_⟩
        exact some.inj eq ▸ not_lt.mp ge

theorem foldl_lesser_least {memo : Option Handle} (least : Least s memo)
    (vals : List (Option Handle)) :
    Least (fun h => s h ∨ some h ∈ vals) (vals.foldl lesser memo) := by
  induction vals generalizing s memo with
  | nil => exact least.congr fun h => or_iff_left not_mem_nil
  | cons o vals ih =>
    refine (ih (lesser_least least o)).congr fun h => ?_
    rw [mem_cons, or_assoc, @eq_comm _ o]

theorem compute_spec (wf : min.WellFormed) :
    Least min.Member min.compute.1 ∧ min.compute.2.WellFormed ∧
      ∀ h, min.compute.2.Member h ↔ min.Member h := by
  rw [compute]
  cases known : min.memo with
  | some m => exact ⟨wf.memo m known, wf, fun h => Iff.rfl⟩
  | none =>
    have nothing : Least (fun _ => False) none := fun _ => not_false
    have least : Least min.Member (min.vals.foldl lesser none) :=
      (foldl_lesser_least nothing min.vals).congr fun h => (or_iff_right not_false).symm
    refine ⟨least, ⟨wf.distinct, fun m hm => ?_⟩, fun h => Iff.rfl⟩
    have memo : min.vals.foldl lesser none = some m := hm
    rw [memo] at least
    exact least

end AggregateMin

/-- The order of the red-black tree. -/
def cmpLsn (a b : Handle) : Int := if a.lsn < b.lsn then -1 else if a.lsn > b.lsn then 1 else 0

/-- A minimum in both modes: the array, and the tree, which is the list of its elements in order.
`live` is no part of the program: it has the handles that are added and not removed. -/
structure MinModes where
  array : AggregateMin
  tree : List Handle
  live : Handle → Prop

namespace MinModes
open AggregateMin CompareList

/-- The element of the tree that is equal to `a`. -/
def found (tree : List Handle) (a : Handle) : Option Handle := tree.find? (cmpLsn a · = 0)

/-- `none` where an assertion fails. -/
def treeAdd (tree : List Handle) (a : Handle) : Option (List Handle) :=
  let tree := search cmpLsn a tree
  if found tree a = some a then some tree else none

def treeRemove (tree : List Handle) (a : Handle) : Option (List Handle) :=
  if found tree a = some a then some (delete cmpLsn a tree) else none

def treeCompute (tree : List Handle) : Option Handle := tree.head?

inductive Call where
  | add (thread : Nat) (a : Handle)
  | remove (thread : Nat) (a : Handle)
  | compute

def Call.run (s : MinModes) : Call → Option MinModes
  | add thread a =>
    (treeAdd s.tree a).map (⟨s.array.add thread a, ·, fun h => h = a ∨ s.live h⟩)
  | remove thread a => do
    some ⟨← s.array.remove thread a, ← treeRemove s.tree a, fun h => s.live h ∧ h ≠ a⟩
  | compute => some { s with array := s.array.compute.2 }

/-- Live values are distinct, and what is removed is live. -/
def Call.Allowed (s : MinModes) : Call → Prop
  | add _ a => ∀ h, s.live h → h.lsn ≠ a.lsn
  | remove _ a => s.live a
  | compute => True

inductive Reached : MinModes → Prop
  | init : Reached ⟨.init, [], fun _ => False⟩
  | step (before : Reached s) (call : Call) (allowed : call.Allowed s) (run : call.run s = some s') :
      Reached s'

structure Inv (s : MinModes) : Prop where
  wellFormed : s.array.WellFormed
  array : ∀ h, s.array.Member h ↔ s.live h
  tree : ∀ h, h ∈ s.tree ↔ s.live h
  sorted : s.tree.Pairwise fun a b => a.lsn < b.lsn

section Runs
variable {s : MinModes} (h : Inv s)

theorem cmpLsn_agrees (a : Handle) (l : List Handle) : Agrees cmpLsn Handle.lsn a l := by
  intro h _
  grind [cmpLsn]

include h

theorem Inv.distinct (left : s.live g) (right : s.live k) (eq : g.lsn = k.lsn) : g = k := by
  obtain ⟨i, left⟩ := member_iff.mp ((h.array g).mpr left)
  obtain ⟨j, right⟩ := member_iff.mp ((h.array k).mpr right)
  cases h.wellFormed.distinct i j g k left right eq
  exact some.inj (some.inj (left.symm.trans right))

theorem Inv.found (live : s.live a) : found s.tree a = some a := by
  cases eq : MinModes.found s.tree a with
  | none =>
    have other := find?_eq_none.mp eq a ((h.tree a).mpr live)
    simp [cmpLsn] at other
  | some b =>
    have equal := find?_some eq
    rw [h.distinct ((h.tree b).mp (mem_of_find?_eq_some eq)) live (by grind [cmpLsn])]

theorem Inv.step {call : Call} (allowed : call.Allowed s) :
    ∃ s', call.run s = some s' ∧ Inv s' := by
  cases call with
  | add thread a =>
    have new : ∀ x ∈ s.tree, x.lsn ≠ a.lsn := fun x mem => allowed x ((h.tree x).mp mem)
    have after : Inv ⟨s.array.add thread a, search cmpLsn a s.tree, fun h => h = a ∨ s.live h⟩ :=
      ⟨add_wellFormed h.wellFormed thread fun g member => allowed g ((h.array g).mp member),
        fun g => by rw [add_member, h.array],
        fun g => by rw [mem_search (cmpLsn_agrees _ _) new, h.tree],
        sorted_search (cmpLsn_agrees _ _) new h.sorted⟩
    refine ⟨_, ?_, after⟩
    rw [Call.run, treeAdd, if_pos (after.found (.inl rfl))]
    rfl
  | remove thread a =>
    obtain ⟨array, removed, wf, members⟩ :=
      remove_spec h.wellFormed thread ((h.array a).mpr allowed)
    refine ⟨⟨array, delete cmpLsn a s.tree, _⟩, ?_, wf, fun g => by rw [members, h.array],
      fun g => ?_, ?_⟩
    · rw [Call.run, removed, treeRemove, if_pos (h.found allowed)]
      rfl
    · rw [mem_delete (cmpLsn_agrees _ _) h.sorted, h.tree]
      exact and_congr_right fun live => not_congr ⟨h.distinct live allowed, congrArg _⟩
    · rw [delete_eq_filter (cmpLsn_agrees _ _) h.sorted]
      exact h.sorted.filter _
  | compute =>
    obtain ⟨_, wf, members⟩ := compute_spec h.wellFormed
    exact ⟨_, rfl, wf, fun g => (members g).trans (h.array g), h.tree, h.sorted⟩

theorem Inv.least_unique (left : Least s.live o) (right : Least s.live o') : o = o' := by
  cases o with
  | none =>
    cases o' with
    | none => rfl
    | some m => exact absurd right.1 (left m)
  | some g =>
    cases o' with
    | none => exact absurd left.1 (right g)
    | some m =>
      have same := le_antisymm (left.2 m right.1) (right.2 g left.1)
      rw [h.distinct left.1 right.1 same]

theorem Inv.tree_least : Least s.live (treeCompute s.tree) := by
  have members := h.tree
  have sorted := h.sorted
  rw [treeCompute]
  cases eq : s.tree with
  | nil =>
    intro k live
    exact absurd (eq ▸ (members k).mpr live) not_mem_nil
  | cons g rest =>
    rw [eq] at members sorted
    refine ⟨(members g).mp mem_cons_self, fun k live => ?_⟩
    cases (members k).mpr live with
    | head => exact le_rfl
    | tail _ mem => exact le_of_lt ((pairwise_cons.mp sorted).1 k mem)

omit h

theorem Reached.inv (h : Reached s) : Inv s := by
  induction h with
  | init => exact ⟨init_wellFormed, fun h => iff_false_intro (not_member_init h),
    fun _ => mem_nil_iff _, .nil⟩
  | step _ _ allowed run ih =>
    obtain ⟨next, ran, after⟩ := ih.step allowed
    cases ran.symm.trans run
    exact after

/-- In both modes the least live value is computed, and no call fails. -/
theorem aggregate_min_modes_agree (h : Reached s) :
    Least s.live s.array.compute.1 ∧ treeCompute s.tree = s.array.compute.1 ∧
      ∀ call : Call, call.Allowed s → (call.run s).isSome := by
  have inv := h.inv
  have least := (compute_spec inv.wellFormed).1.congr fun h => (inv.array h).symm
  refine ⟨least, inv.least_unique inv.tree_least least, fun call allowed => ?_⟩
  obtain ⟨next, run, _⟩ := inv.step allowed
  rw [run]
  rfl

/-- The smaller of two numbers is added last, and both modes compute it. -/
theorem aggregate_min_of_two : ∃ s, Reached s ∧ s.array.compute.1 = some ⟨2, 5⟩ ∧
    treeCompute s.tree = s.array.compute.1 := by
  have first := Reached.init.step (.add 0 ⟨1, 8⟩) nofun rfl
  have second := first.step (.add 1 ⟨2, 5⟩) (by simp [Call.Allowed]) rfl
  exact ⟨_, second, by decide, (aggregate_min_modes_agree second).2.1⟩

end Runs
end MinModes
end Stasis
