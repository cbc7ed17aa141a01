import Stasis.Library.LinearHashing
import Stasis.Operations.LinearHash
import Stasis.Operations.LinkedList.Moving

/-!
Splitting a bucket of the linear hash table.

Each slot of the array list has its own list of records. The loop of the split walks over the
list of the old bucket while entries are taken out of it, and ends with the entries that the
new hash function leaves there; the others are in the new bucket.
-/
namespace Stasis.LinearHash
open LinkedList Chains Fallible

variable {K V : Type}

/-- The records of each slot. -/
abbrev Owns (st : Store K V) (length : Nat) (lists : Nat → Nodes K V) : Prop :=
  Family st Rid.bucket (· < length) lists

theorem Owns.extend {t : Table K V} (h : Owns t.st t.length lists) (slots : Nat) :
    Owns (t.tarrayListExtend slots).st (t.tarrayListExtend slots).length lists := by
  have place : ∀ i k, Held (.bucket i) (lists i) (.bucket k) → k = i := by
    intro i k held
    by_cases old : i < t.length
    · rcases (h.bucket i old).held_cases held with eq | ⟨id, _, eq⟩
      · exact Rid.bucket.inj eq
      · cases eq
    · rw [h.beyond i old] at held
      exact Rid.bucket.inj (held.resolve_right List.not_mem_nil)
  have old : ∀ i id, Held (.bucket i) (lists i) (.record id) → i < t.length := by
    intro i id held
    by_contra out
    rw [h.beyond i out] at held
    rcases held with eq | mem
    · cases eq
    · cases mem
  refine ⟨fun i lt => ?_, fun i out => h.beyond i fun lt => out ?_, fun i j r _ _ here there => ?_⟩
  · by_cases before : i < t.length
    · refine (h.bucket i before).frame fun r held =>
        ⟨?_, fun id => (h.bucket i before).held_used held⟩
      cases r with
      | bucket k =>
        cases place i k held
        exact if_neg (by omega)
      | record id => rfl
    · rw [h.beyond i before]
      refine ⟨if_pos ⟨not_lt.mp before, lt⟩, fun i r e at_i => ?_, fun i r e at_i => ?_, nofun⟩
      · cases at_i
      · cases at_i
  · exact lt_of_lt_of_le lt (Nat.le_add_right ..)
  · cases r with
    | bucket k => exact (place i k here).symm.trans (place j k there)
    | record id => exact h.apart i j _ (old i id here) (old j id there) here there

section Loop
variable [DecidableEq K] {env : Env K} {lhh : Header}

/-- The loop of the split moves the entries that do not belong to the old bucket. -/
theorem splitLoop_of_moveLoop
    (h : moveLoop env.pick env.fuel (fun key => env.bucketOf lhh key ≠ old) (.bucket old) (.bucket new)
      fuel st it = .ok (st', pairs)) :
    splitLoop env lhh old new fuel st it = .ok st' := by
  induction fuel generalizing st it pairs with
  | zero => cases h
  | succ fuel ih =>
    obtain ⟨⟨it', pair⟩, next, rest⟩ := bind_eq_ok.mp h
    refine bind_ok next ?_
    cases pair with
    | none =>
      cases rest
      rfl
    | some pair =>
      obtain ⟨key, value⟩ := pair
      obtain ⟨st1, found, rest⟩ := bind_eq_ok.mp rest
      obtain ⟨⟨st2, pairs'⟩, loop, eq⟩ := bind_eq_ok.mp rest
      cases eq
      rw [moveFound] at found
      by_cases moves : env.bucketOf lhh key ≠ old
      · rw [if_pos (decide_eq_true moves)] at found
        obtain ⟨_, removed, inserted⟩ := bind_eq_ok.mp found
        refine (if_pos moves).trans (bind_ok removed ?_)
        exact bind_ok inserted (ih loop)
      · rw [if_neg fun true => moves (of_decide_eq_true true)] at found
        cases found
        exact (if_neg moves).trans (ih loop)

omit [DecidableEq K] in
theorem extended {t t' : Table K V} (owns : Owns t.st t.length lists)
    (within : lhh.numBuckets ≤ t.length) (aligned : t.length % hashInitCount = 0)
    (eq : (if lhh.numBuckets % hashInitCount = 0 then t.tarrayListExtend hashInitCount else t) =
      t') :
    t'.lhh = t.lhh ∧ Owns t'.st t'.length lists ∧ lhh.numBuckets < t'.length ∧
      t'.length % hashInitCount = 0 := by
  have count : hashInitCount = 16 := rfl
  subst eq
  rw [count] at aligned ⊢
  split
  · have longer : (t.tarrayListExtend 16).length = t.length + 16 := rfl
    exact ⟨rfl, owns.extend 16, by omega, by omega⟩
  · exact ⟨rfl, owns, by omega, aligned⟩

/-- A split divides the old bucket by the new hash function. -/
theorem thashSplitBucket_divides (env : Env K) {t : Table K V} (owns : Owns t.st t.length lists)
    (within : lhh.numBuckets ≤ t.length) (aligned : t.length % hashInitCount = 0)
    (bits : 0 < twoToThe (lhh.bits - 1))
    (nodup : ((items (lists lhh.nextSplit)).map Prod.fst).Nodup)
    (enough : (lists lhh.nextSplit).length < env.fuel) :
    ∃ t' lists', thashSplitBucket env t lhh = .ok (t', lhh.split) ∧ t'.lhh = t.lhh ∧
      Owns t'.st t'.length lists' ∧ lhh.numBuckets < t'.length ∧ t'.length % hashInitCount = 0 ∧
      (∀ j, j ≠ lhh.nextSplit → j ≠ lhh.numBuckets → lists' j = lists j) ∧
      items (lists' lhh.nextSplit) = (items (lists lhh.nextSplit)).filter
        (fun e => env.bucketOf lhh.split e.1 = lhh.nextSplit) ∧
      (items (lists' lhh.numBuckets)).Perm (items (lists lhh.numBuckets) ++
        (items (lists lhh.nextSplit)).filter
          fun e => env.bucketOf lhh.split e.1 ≠ lhh.nextSplit) := by
  have buckets : lhh.numBuckets = lhh.nextSplit + twoToThe (lhh.bits - 1) := rfl
  generalize eq : (if lhh.numBuckets % hashInitCount = 0 then t.tarrayListExtend hashInitCount
    else t) = t1
  obtain ⟨same, owns1, within1, aligned1⟩ := extended owns within aligned eq
  obtain ⟨st', lists', loop, owns', others, stay, moved⟩ := moveLoop_spec env.fresh
    (fun key => env.bucketOf lhh.split key ≠ lhh.nextSplit)
    (show lhh.nextSplit ≠ lhh.numBuckets by omega) (by omega) within1 owns1 nodup
    (tlinkedListIterator_at _ _) (le_of_lt enough) (lt_of_le_of_lt (Nat.sub_le ..) enough)
  simp only [List.take_zero, List.drop_zero, List.nil_append, ne_eq, decide_not, Bool.not_not]
    at stay moved
  refine ⟨{ t1 with st := st' }, lists', ?_, same, owns', within1, aligned1, others, stay, ?_⟩
  · have run := splitLoop_of_moveLoop loop
    rw [thashSplitBucket, ← buckets, eq]
    exact bind_ok run rfl
  · simpa only [ne_eq, decide_not] using moved

/-- The loop, over any two lists that are apart, and the split of a table. -/
theorem iteration_tolerates_removal (env : Env K) (V : Type) :
    (∀ (moves : K → Bool) (st : Store K V) (startList endList : Rid) (l l' : Nodes K V),
      Listed st startList l → Listed st endList l' →
      (∀ r, Held startList l r → ¬ Held endList l' r) → ((items l).map Prod.fst).Nodup →
      l.length < env.fuel →
      ∃ st' m m', moveLoop env.pick env.fuel moves startList endList env.fuel st
          (tlinkedListIterator startList) = .ok (st', items l) ∧
        Listed st' startList m ∧ Listed st' endList m' ∧
        (∀ r, Held startList m r → ¬ Held endList m' r) ∧
        items m = (items l).filter (fun e => !moves e.1) ∧
        (items m').Perm (items l' ++ (items l).filter fun e => moves e.1)) ∧
    ∀ (t : Table K V) (lhh : Header) (lists : Nat → Nodes K V), Owns t.st t.length lists →
      lhh.numBuckets ≤ t.length → t.length % hashInitCount = 0 → 0 < twoToThe (lhh.bits - 1) →
      ((items (lists lhh.nextSplit)).map Prod.fst).Nodup →
      (lists lhh.nextSplit).length < env.fuel →
      ∃ t' lists', thashSplitBucket env t lhh = .ok (t', lhh.split) ∧
        Owns t'.st t'.length lists' ∧
        (∀ j, j ≠ lhh.nextSplit → j ≠ lhh.numBuckets → lists' j = lists j) ∧
        items (lists' lhh.nextSplit) = (items (lists lhh.nextSplit)).filter
          (fun e => env.bucketOf lhh.split e.1 = lhh.nextSplit) ∧
        (items (lists' lhh.numBuckets)).Perm (items (lists lhh.numBuckets) ++
          (items (lists lhh.nextSplit)).filter
            fun e => env.bucketOf lhh.split e.1 ≠ lhh.nextSplit) := by
  refine ⟨fun moves st startList endList l l' start target apart nodup enough => ?_,
    fun t lhh lists owns within aligned bits nodup enough => ?_⟩
  · obtain ⟨st', lists, loop, family, _, stay, moved⟩ := moveLoop_spec env.fresh moves
      Bool.false_ne_true trivial trivial (Family.pair start target apart) nodup
      (tlinkedListIterator_at _ _) (le_of_lt enough)
      (lt_of_le_of_lt (Nat.sub_le ..) enough)
    exact ⟨st', lists false, lists true, loop, family.bucket false trivial,
      family.bucket true trivial, fun r here there => Bool.noConfusion
        (family.apart false true r trivial trivial here there), stay, moved⟩
  · obtain ⟨t', lists', run, _, owns', _, _, rest⟩ :=
      thashSplitBucket_divides env owns within aligned bits nodup enough
    exact ⟨t', lists', run, owns', rest⟩

end Loop

/-- The first and the last entry move. -/
theorem iteration_tolerates_removal_of_first :
    ∃ st' m m', moveLoop highest 4 (fun key => key ≤ 2) (.record 1) (.record 4) 4 threeEntries
        (tlinkedListIterator (.record 1)) = .ok (st', [(1, 10), (3, 30), (2, 20)]) ∧
      Listed st' (.record 1) m ∧ Listed st' (.record 4) m' ∧ items m = [(3, 30)] ∧
      (items m').Perm [(1, 10), (2, 20)] := by
  obtain ⟨st', m, m', loop, start, target, _, left, moved⟩ :=
    (iteration_tolerates_removal (K := Nat) ⟨highest, highest_fresh, UInt32.ofNat, fun n => n, 4⟩
      Nat).1 (fun key => key ≤ 2) threeEntries (.record 1) (.record 4) threeNodes []
      threeEntries_listed threeEntries_empty threeEntries_apart (by decide) (by decide)
  exact ⟨st', m, m', loop, start, target, left, moved⟩

end Stasis.LinearHash
