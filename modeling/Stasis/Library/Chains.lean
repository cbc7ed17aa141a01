import Mathlib.Data.List.Nodup

/-!
Linked lists in a heap.

A list of addresses with their items is linked in a heap when the cell of each address holds
its item and the address behind it. Whether it is depends on these cells only, so that what
happens elsewhere leaves the list linked.
-/
namespace Chains
open Function List Option
variable {R E : Type}

structure Node (R E : Type) where
  next : Option R
  item : E

def addresses (l : List (R × E)) : List R := l.map Prod.fst
def items (l : List (R × E)) : List E := l.map Prod.snd

/-- The address at place `n`, if the list is that long. -/
def nextOf (l : List (R × E)) (n : Nat) : Option R := l[n]?.map Prod.fst

def Linked (heap : R → Option (Node R E)) (l : List (R × E)) : Prop :=
  ∀ i r e, l[i]? = some (r, e) → heap r = some ⟨nextOf l (i + 1), e⟩

section Places
variable {i : Nat}

theorem mem_addresses (h : l[i]? = some (r, e)) : r ∈ addresses l :=
  mem_map_of_mem (mem_of_getElem? h)

theorem mem_addresses_iff : r ∈ addresses l ↔ ∃ (i : Nat) (e : E), l[i]? = some (r, e) := by
  rw [addresses, List.mem_map]
  constructor
  · rintro ⟨⟨r, e⟩, mem, rfl⟩
    obtain ⟨i, at_i⟩ := mem_iff_getElem?.mp mem
    exact ⟨i, e, at_i⟩
  · rintro ⟨i, e, at_i⟩
    exact ⟨(r, e), mem_of_getElem? at_i, rfl⟩

theorem nextOf_mem (h : nextOf l i = some r) : r ∈ addresses l := by
  obtain ⟨p, at_i, rfl⟩ := map_eq_some_iff.mp h
  exact mem_map_of_mem (mem_of_getElem? at_i)

@[simp] theorem items_cons (p : R × E) : items (p :: l) = p.2 :: items l := rfl

end Places

section Linked

theorem Linked.congr (h : Linked heap l) (same : ∀ r ∈ addresses l, heap' r = heap r) :
    Linked heap' l :=
  fun i r e at_i => (same r (mem_addresses at_i)).trans (h i r e at_i)

/-- From an address on, a list in a heap goes on in one way, and so meets no address twice. -/
theorem Linked.inj (h : Linked heap l) {i j : Nat} (at_i : l[i]? = some (r, e))
    (at_j : l[j]? = some (r, f)) : i = j := by
  have apart : ∀ n i j r e f, l.length - j = n → i < j → l[i]? = some (r, e) →
      l[j]? = some (r, f) → False := by
    intro n
    induction n with
    | zero =>
      intro i j r e f left _ _ at_j
      have := (List.getElem?_eq_some_iff.mp at_j).1
      omega
    | succ n ih =>
      intro i j r e f left lt at_i at_j
      have inside := (List.getElem?_eq_some_iff.mp at_j).1
      have same := (h i r e at_i).symm.trans (h j r f at_j)
      have next : nextOf l (i + 1) = nextOf l (j + 1) :=
        congrArg Node.next (some.inj same)
      obtain ⟨s, at_s⟩ : ∃ s, l[i + 1]? = some s :=
        ⟨_, getElem?_eq_getElem (Nat.lt_of_le_of_lt lt inside)⟩
      rw [nextOf, nextOf, at_s] at next
      obtain ⟨t, at_t, eq⟩ := map_eq_some_iff.mp next.symm
      refine ih (i + 1) (j + 1) t.1 s.2 t.2 (by omega) (by omega) ?_ at_t
      rw [at_s, eq]
  rcases Nat.lt_trichotomy i j with lt | eq | lt
  · exact (apart _ i j r e f rfl lt at_i at_j).elim
  · exact eq
  · exact (apart _ j i r f e rfl lt at_j at_i).elim

theorem Linked.nodup (h : Linked heap l) : (addresses l).Nodup := by
  refine nodup_iff_getElem?_ne_getElem?.mpr fun i j lt inside same => ?_
  rw [addresses, length_map] at inside
  have at_j : l[j]? = some l[j] := getElem?_eq_getElem inside
  have at_i : l[i]? = some l[i] := getElem?_eq_getElem (Nat.lt_trans lt inside)
  rw [addresses, getElem?_map, getElem?_map, at_i, at_j] at same
  have eq : l[i].1 = l[j].1 := some.inj same
  have again : l[i]? = some (l[j].1, l[i].2) := by rw [at_i, ← eq]
  exact Nat.ne_of_lt lt (h.inj again at_j)

theorem Linked.ne (h : Linked heap l) {i j : Nat} (at_i : l[i]? = some (r, e))
    (at_j : l[j]? = some (p, x)) (apart : i ≠ j) : r ≠ p := by
  rintro rfl
  exact apart (h.inj at_i at_j)

variable [DecidableEq R] {q : R}

/-- A new node behind the first one. -/
theorem Linked.insertSecond (h : Linked heap ((p, x) :: l)) (fresh : q ∉ addresses ((p, x) :: l)) :
    Linked (update (update heap q (some ⟨nextOf l 0, y⟩)) p (some ⟨some q, x⟩))
      ((p, x) :: (q, y) :: l) := by
  have apart : q ≠ p := fun eq => fresh (eq ▸ mem_cons_self)
  intro i r e at_i
  cases i with
  | zero =>
    cases at_i
    exact update_self ..
  | succ i =>
    cases i with
    | zero =>
      cases at_i
      rw [update_of_ne apart]
      exact update_self ..
    | succ i =>
      have old : ((p, x) :: l)[i + 1]? = some (r, e) := at_i
      have ne_q : r ≠ q := fun eq => fresh (eq ▸ mem_addresses old)
      have ne_p : r ≠ p := h.ne old (j := 0) rfl (by omega)
      rw [update_of_ne ne_p, update_of_ne ne_q]
      exact h (i + 1) r e old

/-- The first node takes the item of the second one, which is left out. -/
theorem Linked.pullUp (h : Linked heap ((p, x) :: (q, y) :: l)) :
    Linked (update (update heap q none) p (some ⟨nextOf l 0, y⟩))
      ((p, y) :: l) := by
  intro i r e at_i
  cases i with
  | zero =>
    cases at_i
    exact update_self ..
  | succ i =>
    have old : ((p, x) :: (q, y) :: l)[i + 2]? = some (r, e) := at_i
    have ne_p : r ≠ p := h.ne old (j := 0) rfl (by omega)
    have ne_q : r ≠ q := h.ne old (j := 1) rfl (by omega)
    rw [update_of_ne ne_p, update_of_ne ne_q]
    exact h (i + 2) r e old

/-- The node at place `n + 1` is left out, and the one in front of it leads to the one behind. -/
theorem Linked.unlink (h : Linked heap l) {n : Nat} (at_p : l[n]? = some (p, x))
    (at_q : l[n + 1]? = some (q, y)) :
    Linked (update (update heap p (some ⟨nextOf l (n + 2), x⟩)) q none)
      (l.eraseIdx (n + 1)) := by
  have next : ∀ i, nextOf (l.eraseIdx (n + 1)) i = if i < n + 1 then nextOf l i else nextOf l (i + 1) := by
    intro i
    rw [nextOf, getElem?_eraseIdx]
    split <;> rfl
  intro i r e at_i
  rw [getElem?_eraseIdx] at at_i
  have ne_q : r ≠ q := by
    split at at_i
    · exact h.ne at_i at_q (by omega)
    · exact h.ne at_i at_q (by omega)
  rw [update_of_ne ne_q, next]
  split at at_i
  · next before =>
    by_cases last : i = n
    · subst last
      cases at_p.symm.trans at_i
      rw [if_neg (Nat.lt_irrefl _)]
      exact update_self ..
    · rw [update_of_ne (h.ne at_i at_p last), if_pos (by omega)]
      exact h i r e at_i
  · next behind =>
    rw [update_of_ne (h.ne at_i at_p (by omega)), if_neg (by omega)]
    exact h (i + 1) r e at_i

end Linked
end Chains
