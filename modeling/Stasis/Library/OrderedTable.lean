import Mathlib

/-!
Tables kept in the order of a key.

A tree is the list of its rows in strictly increasing key order, so a key occurs
at most once. A range of rows is read by looking up the first row at or above a
key and then the next row above the last one found.
-/
namespace OrderedTable
open List

structure Tree {T K : Type} [LinearOrder K] (key : T → K) where
  rows : List T
  sorted : rows.Pairwise fun a b => key a < key b

namespace Tree
section
variable {T K : Type} [LinearOrder K] {key : T → K}

def empty : Tree key := ⟨[], .nil⟩

instance : Membership T (Tree key) := ⟨fun t r => r ∈ t.rows⟩

variable {t : Tree key} {r v : T} {k : K} {l : List T}

theorem mem_rows : r ∈ t.rows ↔ r ∈ t := Iff.rfl

@[simp] theorem not_mem_empty (r : T) : r ∉ (empty : Tree key) := not_mem_nil

def find (t : Tree key) (k : K) : Option T := t.rows.find? fun r => decide (key r = k)

def delete (t : Tree key) (k : K) : Tree key :=
  ⟨t.rows.filter fun r => decide (key r ≠ k), t.sorted.filter _⟩

def insertRow (key : T → K) (v : T) : List T → List T
  | [] => [v]
  | r :: l => if key v < key r then v :: r :: l else r :: insertRow key v l

theorem mem_insertRow : a ∈ insertRow key v l ↔ a = v ∨ a ∈ l := by
  induction l with
  | nil => simp [insertRow]
  | cons r l ih =>
    simp only [insertRow]
    split
    · exact mem_cons
    · rw [mem_cons, ih, mem_cons]
      exact or_left_comm

theorem sorted_insertRow (h : l.Pairwise fun a b => key a < key b) (new : ∀ r ∈ l, key r ≠ key v) :
    (insertRow key v l).Pairwise fun a b => key a < key b := by
  induction l with
  | nil => exact pairwise_singleton _ _
  | cons r l ih =>
    have below := pairwise_cons.mp h
    simp only [insertRow]
    split
    case isTrue lt =>
      refine pairwise_cons.mpr ⟨fun a ha => ?_, h⟩
      cases mem_cons.mp ha with
      | inl eq => exact eq ▸ lt
      | inr mem => exact lt_trans lt (below.1 a mem)
    case isFalse ge =>
      refine pairwise_cons.mpr
        ⟨fun a ha => ?_, ih below.2 fun a ha => new a (mem_cons_of_mem r ha)⟩
      cases mem_insertRow.mp ha with
      | inl eq => exact eq ▸ lt_of_le_of_ne (not_lt.mp ge) (new r mem_cons_self)
      | inr mem => exact below.1 a mem

/-- The tree with row `v`, unless a row has its key already. -/
def insert (t : Tree key) (v : T) : Tree key :=
  if new : ∀ r ∈ t.rows, key r ≠ key v then
    ⟨insertRow key v t.rows, sorted_insertRow t.sorted new⟩
  else t

def lookupGreaterEq (t : Tree key) (k : K) : Option T := t.rows.find? fun r => decide (k ≤ key r)

def lookupGreater (t : Tree key) (k : K) : Option T := t.rows.find? fun r => decide (k < key r)

/-- The rows from `cur` on, one lookup after the other, for as long as `p` holds. -/
def scan (t : Tree key) (p : T → Bool) : Nat → Option T → List T
  | 0, _ => []
  | _ + 1, none => []
  | n + 1, some r => if p r then r :: scan t p n (t.lookupGreater (key r)) else []

/-- The rows with `p` that follow one another from key `k` on. -/
def range (t : Tree key) (k : K) (p : T → Bool) : List T :=
  t.scan p t.rows.length (t.lookupGreaterEq k)

theorem key_inj (hr : r ∈ t) (hs : s ∈ t) (h : key r = key s) : r = s := by
  have nodup : (t.rows.map key).Nodup := pairwise_map.mpr (t.sorted.imp ne_of_lt)
  exact inj_on_of_nodup_map nodup hr hs h

theorem find_eq_some_iff : t.find k = some r ↔ r ∈ t ∧ key r = k := by
  constructor
  · intro h
    exact ⟨mem_of_find?_eq_some h, by simpa using find?_some h⟩
  · intro ⟨mem, eq⟩
    cases h : t.find k with
    | none => exact absurd (decide_eq_true eq) (find?_eq_none.mp h r mem)
    | some s =>
      have found : key s = k := by simpa using find?_some h
      exact congrArg some (key_inj (mem_of_find?_eq_some h) mem (found.trans eq.symm))

theorem find_eq_none_iff : t.find k = none ↔ ∀ r ∈ t, key r ≠ k := by
  refine find?_eq_none.trans (forall₂_congr fun r _ => ?_)
  rw [decide_eq_true_eq]

theorem mem_delete : r ∈ t.delete k ↔ r ∈ t ∧ key r ≠ k := by
  refine mem_filter.trans ?_
  rw [decide_eq_true_eq]
  exact Iff.rfl

theorem mem_insert (new : t.find (key v) = none) : r ∈ t.insert v ↔ r = v ∨ r ∈ t := by
  have absent : ∀ r ∈ t.rows, key r ≠ key v := find_eq_none_iff.mp new
  rw [← mem_rows, insert, dif_pos absent]
  exact mem_insertRow

theorem find_delete (t : Tree key) (k k' : K) :
    (t.delete k).find k' = if k' = k then none else t.find k' := by
  split
  case isTrue eq => exact find_eq_none_iff.mpr fun r mem => eq ▸ (mem_delete.mp mem).2
  case isFalse ne =>
    refine Option.ext fun r => ?_
    rw [find_eq_some_iff, find_eq_some_iff, mem_delete]
    exact ⟨fun h => ⟨h.1.1, h.2⟩, fun h => ⟨⟨h.1, h.2 ▸ ne⟩, h.2⟩⟩

theorem find_insert (new : t.find (key v) = none) (k : K) :
    (t.insert v).find k = if k = key v then some v else t.find k := by
  refine Option.ext fun r => ?_
  rw [find_eq_some_iff, mem_insert new]
  split
  case isTrue eq =>
    refine ⟨fun h => ?_, fun h => Option.some.inj h ▸ ⟨.inl rfl, eq.symm⟩⟩
    refine congrArg some (h.1.elim Eq.symm fun mem => ?_)
    exact absurd (h.2.trans eq) (find_eq_none_iff.mp new r mem)
  case isFalse ne =>
    rw [find_eq_some_iff]
    refine ⟨fun h => ⟨h.1.resolve_left fun eq => ne ?_, h.2⟩, fun h => ⟨.inr h.1, h.2⟩⟩
    exact h.2.symm.trans (congrArg key eq)

theorem lookupGreaterEq_eq_some (h : t.lookupGreaterEq k = some r) : r ∈ t ∧ k ≤ key r :=
  ⟨mem_of_find?_eq_some h, by simpa using find?_some h⟩

theorem find?_least (sorted : l.Pairwise fun a b => key a < key b) (h : l.find? p = some r)
    (mem : s ∈ l) (yes : p s = true) : key r ≤ key s := by
  obtain ⟨_, front, back, rfl, before⟩ := find?_eq_some_iff_append.mp h
  rw [pairwise_append, pairwise_cons] at sorted
  rcases mem_append.mp mem with early | late
  · have no := before s early
    rw [yes] at no
    cases no
  · rcases mem_cons.mp late with rfl | late
    · exact le_rfl
    · exact (sorted.2.1.1 s late).le

theorem lookupGreaterEq_least (h : t.lookupGreaterEq k = some r) (mem : s ∈ t) (le : k ≤ key s) :
    key r ≤ key s :=
  find?_least t.sorted h mem (decide_eq_true le)

theorem lookupGreaterEq_eq_none (h : t.lookupGreaterEq k = none) (mem : s ∈ t) : key s < k :=
  not_le.mp fun le => find?_eq_none.mp h s mem (decide_eq_true le)

theorem lookupGreater_append (h : t.rows = front ++ r :: back) :
    t.lookupGreater (key r) = back.head? := by
  have sorted := t.sorted
  rw [h, pairwise_append, pairwise_cons] at sorted
  have low : ∀ s ∈ front, ¬decide (key r < key s) = true := fun s mem lt =>
    lt_asymm (of_decide_eq_true lt) (sorted.2.2 s mem r mem_cons_self)
  rw [lookupGreater, h, find?_append, find?_eq_none.mpr low, Option.none_or,
    find?_cons_of_neg (by simp)]
  cases back with
  | nil => rfl
  | cons s back => exact find?_cons_of_pos (decide_eq_true (sorted.2.1.1 s mem_cons_self))

theorem scan_append (h : t.rows = front ++ back) (enough : back.length ≤ n) :
    t.scan p n back.head? = back.takeWhile p := by
  induction back generalizing front n with
  | nil => cases n <;> rfl
  | cons r back ih =>
    cases n with
    | zero => exact absurd enough (by simp)
    | succ n =>
      have passed : t.rows = (front ++ [r]) ++ back := by simp [h]
      rw [head?_cons, scan, lookupGreater_append h,
        ih passed (Nat.le_of_succ_le_succ enough), takeWhile_cons]

theorem takeWhile_eq_filter (h : l.Pairwise fun a b => p b = true → p a = true) :
    l.takeWhile p = l.filter p := by
  induction l with
  | nil => rfl
  | cons r l ih =>
    have first := pairwise_cons.mp h
    rw [takeWhile_cons, filter_cons, ih first.2]
    split
    case isTrue => rfl
    case isFalse no =>
      exact (filter_eq_nil_iff.mpr fun s mem yes => no (first.1 s mem yes)).symm

/-- A range is all rows with `p`, if they are at or above the key it starts from and no row
without `p` lies between them. -/
theorem range_eq_filter (above : ∀ r ∈ t, p r = true → k ≤ key r)
    (convex : ∀ r s, k ≤ key r → key r < key s → p s = true → p r = true) :
    t.range k p = t.rows.filter p := by
  cases h : t.lookupGreaterEq k with
  | none =>
    have none : t.rows.filter p = [] := filter_eq_nil_iff.mpr fun r mem yes =>
      not_le.mpr (lookupGreaterEq_eq_none h mem) (above r mem yes)
    rw [range, h, none]
    cases t.rows.length <;> rfl
  | some r =>
    obtain ⟨start, front, back, rows, before⟩ := find?_eq_some_iff_append.mp h
    have sorted := t.sorted
    rw [rows, pairwise_append] at sorted
    have high : ∀ s ∈ r :: back, k ≤ key s := by
      refine forall_mem_cons.mpr ⟨of_decide_eq_true start, fun s mem => ?_⟩
      exact (of_decide_eq_true start).trans ((pairwise_cons.mp sorted.2.1).1 s mem).le
    have outside : front.filter p = [] := by
      refine filter_eq_nil_iff.mpr fun s mem yes => ?_
      have le := above s (mem_rows.mp (rows ▸ mem_append_left _ mem)) yes
      exact absurd (before s mem) (by simp [le])
    have initial : (r :: back).Pairwise fun a b => p b = true → p a = true :=
      sorted.2.1.imp_of_mem fun ha _ lt yes => convex _ _ (high _ ha) lt yes
    calc t.range k p
        = t.scan p t.rows.length (r :: back).head? := by rw [range, h, head?_cons]
      _ = (r :: back).takeWhile p := scan_append rows (by rw [rows]; simp)
      _ = (r :: back).filter p := takeWhile_eq_filter initial
      _ = t.rows.filter p := by rw [rows, filter_append, outside, nil_append]

end
end Tree
end OrderedTable
