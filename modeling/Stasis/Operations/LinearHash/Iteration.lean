import Stasis.Operations.LinearHash.FiniteMap

/-!
A pass over the linear hash table.

The iterator is in front of some place in the list of a bucket. What it has yet to return is
the rest of that list, and the lists of the buckets behind it.
-/
namespace Stasis.LinearHash
open LinkedList Chains Fallible List

variable {K V : Type} {t : Table K V} {lists : Nat → Nodes K V} {hit : HashIterator} {n : Nat}

/-- What is left to return in front of place `n` of a bucket. -/
def remaining (lists : Nat → Nodes K V) (numBuckets bucket n : Nat) : List (K × V) :=
  (items (lists bucket)).drop n ++
    (List.range' (bucket + 1) (numBuckets - (bucket + 1))).flatMap fun i => items (lists i)

def HashIterator.At (hit : HashIterator) (lists : Nat → Nodes K V) (n : Nat) : Prop :=
  hit.it.At (.bucket hit.bucket) (lists hit.bucket) n ∧ hit.bucket < hit.numBuckets

theorem remaining_some (at_n : (lists bucket)[n]? = some (r, e)) :
    remaining lists numBuckets bucket n = e :: remaining lists numBuckets bucket (n + 1) := by
  have dropped := items_drop at_n
  rw [items, items, map_drop, map_drop] at dropped
  rw [remaining, remaining, items, dropped]
  rfl

theorem remaining_skip (ended : (lists bucket)[n]? = none) (more : bucket + 1 < numBuckets) :
    remaining lists numBuckets bucket n = remaining lists numBuckets (bucket + 1) 0 := by
  have left : numBuckets - (bucket + 1) = numBuckets - (bucket + 1 + 1) + 1 := by omega
  rw [remaining, remaining, items, drop_eq_nil_of_le, left, range'_succ,
    flatMap_cons]
  · rfl
  · rw [length_map]
    exact List.getElem?_eq_none_iff.mp ended

theorem remaining_last (ended : (lists bucket)[n]? = none) (last : ¬ bucket + 1 < numBuckets) :
    remaining lists numBuckets bucket n = [] := by
  have left : numBuckets - (bucket + 1) = 0 := by omega
  rw [remaining, items, drop_eq_nil_of_le, left]
  · rfl
  · rw [length_map]
    exact List.getElem?_eq_none_iff.mp ended

section
variable (owns : Owns t.st t.length lists) (within : hit.numBuckets ≤ t.length)
  (place : hit.At lists n)
include owns within place

theorem thashNext_spec (enough : hit.numBuckets - hit.bucket ≤ turns) :
    match remaining lists hit.numBuckets hit.bucket n with
    | [] => thashNext t turns hit = .ok none
    | e :: rest => ∃ hit' n', thashNext t turns hit = .ok (some (hit', e)) ∧ hit'.At lists n' ∧
        hit'.numBuckets = hit.numBuckets ∧
        remaining lists hit'.numBuckets hit'.bucket n' = rest := by
  induction turns generalizing hit n with
  | zero =>
    have := place.2
    omega
  | succ turns ih =>
    have bucket := owns.bucket hit.bucket (lt_of_lt_of_le place.2 within)
    cases at_n : (lists hit.bucket)[n]? with
    | none =>
      obtain ⟨it', next⟩ := tlinkedListNext_none bucket place.1 (List.getElem?_eq_none_iff.mp at_n)
      by_cases more : hit.bucket + 1 < hit.numBuckets
      · have first : HashIterator.At ⟨hit.bucket + 1, hit.numBuckets,
            tlinkedListIterator (.bucket (hit.bucket + 1))⟩ lists 0 :=
          ⟨tlinkedListIterator_at _ _, more⟩
        have later := ih (by exact within) first
          (by show hit.numBuckets - (hit.bucket + 1) ≤ _; omega)
        have step : thashNext t (turns + 1) hit = thashNext t turns ⟨hit.bucket + 1,
            hit.numBuckets, tlinkedListIterator (.bucket (hit.bucket + 1))⟩ := by
          rw [thashNext, next]
          exact if_pos more
        rw [remaining_skip at_n more, step]
        exact later
      · rw [remaining_last at_n more]
        exact bind_ok next (if_neg more)
    | some p =>
      obtain ⟨it', next, passed⟩ := tlinkedListNext_some bucket place.1 at_n
      rw [remaining_some at_n]
      have inside := (List.getElem?_eq_some_iff.mp at_n).1
      exact ⟨{ hit with it := it' }, n + 1, bind_ok next rfl,
        ⟨passed.keep inside, place.2⟩, rfl, rfl⟩

theorem thashPass_spec (enough : (remaining lists hit.numBuckets hit.bucket n).length < fuel) :
    thashPass t fuel hit = .ok (remaining lists hit.numBuckets hit.bucket n) := by
  induction fuel generalizing hit n with
  | zero => omega
  | succ fuel ih =>
    have next := thashNext_spec owns within place (Nat.sub_le _ hit.bucket)
    cases left : remaining lists hit.numBuckets hit.bucket n with
    | nil =>
      rw [left] at next
      exact bind_ok next rfl
    | cons e rest =>
      rw [left] at next enough
      obtain ⟨hit', n', returned, place', same, rfl⟩ := next
      have later := ih (same.symm ▸ within) place' (Nat.lt_of_succ_lt_succ enough)
      exact bind_ok returned (bind_ok later rfl)

end

theorem remaining_zero (pos : 0 < numBuckets) :
    remaining lists numBuckets 0 0 = (List.range numBuckets).flatMap fun i => items (lists i) := by
  obtain ⟨k, rfl⟩ : ∃ k, numBuckets = k + 1 := ⟨numBuckets - 1, by omega⟩
  rw [remaining, range_eq_range', range'_succ, flatMap_cons]
  rfl

theorem Holds.pass [DecidableEq K] (h : Holds env t.st t.length t.lhh lists m)
    (enough : m.keys.card < fuel) :
    ∃ l, thashPass t fuel (thashIterator t) = .ok l ∧ (l.map Prod.fst).Nodup ∧
      ∀ key value, (key, value) ∈ l ↔ m.lookup key = some value := by
  have within := h.shape.within
  have pos : 0 < t.lhh.numBuckets := by
    rw [h.shape.numBuckets]
    exact Nat.add_pos_right _ (Nat.two_pow_pos _)
  have start : (thashIterator t).At lists 0 := ⟨tlinkedListIterator_at _ _, pos⟩
  have mem : ∀ key value, (key, value) ∈ remaining lists t.lhh.numBuckets 0 0 ↔
      m.lookup key = some value := by
    intro key value
    rw [remaining_zero pos, mem_flatMap, h.maps]
    refine ⟨fun ⟨i, _, held⟩ => ⟨i, held⟩, fun ⟨i, held⟩ => ⟨i, mem_range.mpr ?_, held⟩⟩
    rw [← h.placed i _ held, h.shape.numBuckets]
    exact h.shape.bucketOf_lt
  have nodup : ((remaining lists t.lhh.numBuckets 0 0).map Prod.fst).Nodup := by
    rw [remaining_zero pos, map_flatMap, nodup_flatMap]
    refine ⟨fun i _ => h.nodup i, nodup_range.imp fun {i j} ne key memI memJ => ne ?_⟩
    obtain ⟨e, heldI, rfl⟩ := mem_map.mp memI
    obtain ⟨e', heldJ, same⟩ := mem_map.mp memJ
    rw [← h.placed i e heldI, ← h.placed j e' heldJ, same]
  have few := length_le_card nodup fun e held => (mem e.1 e.2).mp held
  refine ⟨_, thashPass_spec h.owns ?_ start (lt_of_le_of_lt few enough), nodup, mem⟩
  show t.lhh.numBuckets ≤ t.length
  rw [h.shape.numBuckets]
  exact within

end Stasis.LinearHash
