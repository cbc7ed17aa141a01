import Stasis.Library.OrderedTable

/-!
Lists that are searched and kept in order by a comparison.

The comparison gives an integer whose sign is the order, as for the search trees of
C. Nothing makes it an order: `Agrees` says that it places a key among the elements
of a list by a rank, and what the operations do is stated under it.
-/
namespace CompareList
open List
open OrderedTable.Tree (insertRow mem_insertRow sorted_insertRow find?_least)
variable {α K : Type} [LinearOrder K]

/-- Add `t`, unless an element is equal to it. -/
def search (cmp : α → α → Int) (t : α) : List α → List α
  | [] => [t]
  | x :: l =>
    if cmp t x < 0 then t :: x :: l
    else if 0 < cmp t x then x :: search cmp t l
    else x :: l

def delete (cmp : α → α → Int) (t : α) : List α → List α
  | [] => []
  | x :: l => if cmp t x = 0 then l else x :: delete cmp t l

/-- The last element that is not greater than `t`. -/
def lookupLessEq (cmp : α → α → Int) (t : α) : List α → Option α
  | [] => none
  | x :: l => if cmp t x < 0 then none else (lookupLessEq cmp t l).or (some x)

/-- The first element that is greater than `t`. -/
def lookupGreater (cmp : α → α → Int) (t : α) (l : List α) : Option α :=
  l.find? fun x => cmp t x < 0

/-- The comparison places `t` among the elements of `l` by their ranks. -/
def Agrees (cmp : α → α → Int) (rank : α → K) (t : α) (l : List α) : Prop :=
  ∀ x ∈ l, (cmp t x < 0 ↔ rank t < rank x) ∧ (0 < cmp t x ↔ rank x < rank t)

variable {cmp : α → α → Int} {rank : α → K} {t : α} {l : List α}

theorem Agrees.tail (h : Agrees cmp rank t (x :: l)) : Agrees cmp rank t l :=
  fun y mem => h y (.tail _ mem)

theorem Agrees.eq_zero_iff (h : Agrees cmp rank t l) (mem : x ∈ l) :
    cmp t x = 0 ↔ rank t = rank x := by
  rw [← not_iff_not]
  calc cmp t x ≠ 0
    _ ↔ cmp t x < 0 ∨ 0 < cmp t x := ne_iff_lt_or_gt
    _ ↔ rank t < rank x ∨ rank x < rank t := or_congr (h x mem).1 (h x mem).2
    _ ↔ rank t ≠ rank x := ne_iff_lt_or_gt.symm

section
variable (agrees : Agrees cmp rank t l) (new : ∀ x ∈ l, rank x ≠ rank t)
include agrees new

theorem search_eq_insertRow : search cmp t l = insertRow rank t l := by
  induction l with
  | nil => rfl
  | cons x l ih =>
    have less := (agrees x mem_cons_self).1
    have ne : cmp t x ≠ 0 := fun eq =>
      new x mem_cons_self ((agrees.eq_zero_iff mem_cons_self).mp eq).symm
    rw [search, insertRow, ih agrees.tail fun y mem => new y (.tail _ mem)]
    by_cases lt : cmp t x < 0
    · rw [if_pos lt, if_pos (less.mp lt)]
    · rw [if_neg lt, if_neg (mt less.mpr lt), if_pos (by omega)]

theorem mem_search : u ∈ search cmp t l ↔ u = t ∨ u ∈ l := by
  rw [search_eq_insertRow agrees new]
  exact mem_insertRow

theorem sorted_search (sorted : l.Pairwise fun a b => rank a < rank b) :
    (search cmp t l).Pairwise fun a b => rank a < rank b := by
  rw [search_eq_insertRow agrees new]
  exact sorted_insertRow sorted new

end

section
variable (agrees : Agrees cmp rank t l) (sorted : l.Pairwise fun a b => rank a < rank b)
include agrees sorted

theorem delete_eq_filter : delete cmp t l = l.filter (rank · ≠ rank t) := by
  induction l with
  | nil => rfl
  | cons x l ih =>
    have equal := agrees.eq_zero_iff (x := x) mem_cons_self
    rw [delete, filter_cons]
    by_cases same : rank t = rank x
    · rw [if_pos (equal.mpr same), if_neg (by simp [same])]
      refine (filter_eq_self.mpr fun y mem => decide_eq_true ?_).symm
      exact (same ▸ (pairwise_cons.mp sorted).1 y mem).ne'
    · rw [if_neg (mt equal.mp same), if_pos (decide_eq_true (Ne.symm same)),
        ih agrees.tail sorted.of_cons]

theorem mem_delete : u ∈ delete cmp t l ↔ u ∈ l ∧ rank u ≠ rank t := by
  rw [delete_eq_filter agrees sorted, mem_filter, decide_eq_true_iff]

theorem lookupLessEq_eq_none (h : lookupLessEq cmp t l = none) : ∀ x ∈ l, rank t < rank x := by
  cases l with
  | nil => exact fun x mem => absurd mem not_mem_nil
  | cons x l =>
    rw [lookupLessEq] at h
    split at h
    · next less =>
      have below := (agrees x mem_cons_self).1.mp less
      intro y mem
      rcases mem_cons.mp mem with rfl | mem
      · exact below
      · exact below.trans ((pairwise_cons.mp sorted).1 y mem)
    · simp at h

theorem lookupLessEq_eq_some (h : lookupLessEq cmp t l = some u) :
    u ∈ l ∧ rank u ≤ rank t ∧ ∀ x ∈ l, rank x ≤ rank t → rank x ≤ rank u := by
  induction l with
  | nil => cases h
  | cons x l ih =>
    have first := (pairwise_cons.mp sorted).1
    rw [lookupLessEq] at h
    split at h
    · cases h
    · next notLess =>
      have low : rank x ≤ rank t :=
        not_lt.mp fun lt => notLess ((agrees x mem_cons_self).1.mpr lt)
      cases rest : lookupLessEq cmp t l with
      | none =>
        rw [rest] at h
        cases h
        refine ⟨mem_cons_self, low, ?_⟩
        intro y mem le
        rcases mem_cons.mp mem with rfl | mem
        · exact le_rfl
        · exact absurd le
            (not_le.mpr (lookupLessEq_eq_none agrees.tail sorted.of_cons rest y mem))
      | some v =>
        rw [rest] at h
        cases h
        obtain ⟨mem, le, last⟩ := ih agrees.tail sorted.of_cons rest
        refine ⟨.tail _ mem, le, ?_⟩
        intro y mem' le'
        rcases mem_cons.mp mem' with rfl | mem'
        · exact (first u mem).le
        · exact last y mem' le'

end

theorem lookupGreater_eq_none (agrees : Agrees cmp rank t l)
    (h : lookupGreater cmp t l = none) : ∀ x ∈ l, rank x ≤ rank t := by
  intro x mem
  have none := find?_eq_none.mp h x mem
  exact not_lt.mp fun lt => none (decide_eq_true ((agrees x mem).1.mpr lt))

theorem lookupGreater_eq_some (agrees : Agrees cmp rank t l)
    (sorted : l.Pairwise fun a b => rank a < rank b) (h : lookupGreater cmp t l = some u) :
    u ∈ l ∧ rank t < rank u ∧ ∀ x ∈ l, rank t < rank x → rank u ≤ rank x := by
  have mem := mem_of_find?_eq_some h
  have less := find?_some h
  refine ⟨mem, (agrees u mem).1.mp (of_decide_eq_true less), ?_⟩
  intro x mem' lt
  exact find?_least sorted h mem' (decide_eq_true ((agrees x mem').1.mpr lt))

end CompareList
