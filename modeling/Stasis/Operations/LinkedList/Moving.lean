import Stasis.Operations.LinkedList.Buckets
import Stasis.Library.Updates

/-!
Entries that move from one list to another.

Lists that have no record in common stay apart when one of them changes. A loop that removes
entries from the list it iterates over, and inserts them into another one, meets each entry
once, since an iterator whose last entry is removed goes on in front of the next one.
-/
namespace Stasis.LinkedList
open Chains Fallible Function List Updates

variable {K V ι : Type}

/-- The record that stays, and those of the entries. -/
def Held (list : Rid) (l : Nodes K V) (r : Rid) : Prop := r = list ∨ r ∈ addresses l

/-- Lists that start at different records and have none in common. -/
structure Family (st : Store K V) (roots : ι → Rid) (Inside : ι → Prop) (lists : ι → Nodes K V) :
    Prop where
  bucket : ∀ i, Inside i → Listed st (roots i) (lists i)
  beyond : ∀ i, ¬ Inside i → lists i = []
  apart : ∀ i j r, Inside i → Inside j → Held (roots i) (lists i) r →
    Held (roots j) (lists j) r → i = j

section Family
variable {l : Nodes K V}

theorem Listed.held_cases (h : Listed st list l) (held : Held list l r) :
    r = list ∨ ∃ id ∈ st.used, r = .record id := by
  rcases held with eq | mem
  · exact .inl eq
  obtain ⟨n, e, at_n⟩ := mem_addresses_iff.mp mem
  cases n with
  | zero =>
    cases l with
    | nil => cases at_n
    | cons p l =>
      cases at_n
      exact .inl h.root
  | succ n => exact .inr (h.used n r e at_n)

theorem Listed.held_used (h : Listed st list l) (held : Held list l r) {id : Nat}
    (eq : r = .record id) : id ∈ st.used := by
  rcases h.held_cases held with root | ⟨id', used, record⟩
  · exact h.own id (root.symm.trans eq)
  · cases record.symm.trans eq
    exact used

theorem Listed.frame (h : Listed st list l)
    (same : ∀ r, Held list l r → st'.records r = st.records r ∧
      ∀ id, r = .record id → id ∈ st'.used) : Listed st' list l := by
  refine ⟨?_, h.linked.congr fun r mem => ?_, fun i r e at_i => ?_, (same _ (.inl rfl)).2⟩
  · cases l with
    | nil => exact (same _ (.inl rfl)).1.trans h.root
    | cons p l => exact h.root
  · exact congrArg nodeOf (same r (.inr mem)).1
  · obtain ⟨id, _, rfl⟩ := h.used i r e at_i
    exact ⟨id, (same _ (.inr (mem_addresses at_i))).2 id rfl, rfl⟩

variable [DecidableEq ι]

theorem Family.step (h : Family st roots Inside lists) {i : ι} (inside : Inside i)
    (changed : Changed st st' (roots i) (lists i) l') :
    Family st' roots Inside (update lists i l') := by
  have kept : ∀ j r, j ≠ i → Inside j → Held (roots j) (lists j) r →
      ¬ Held (roots i) l' r ∧ st'.records r = st.records r ∧
        ∀ id, r = .record id → id ∈ st'.used := by
    intro j r ne insideJ held
    have out : ¬ Held (roots i) (lists i) r := fun other =>
      ne (h.apart j i r insideJ inside held other)
    have used : ∀ id, r = .record id → id ∈ st.used := fun id =>
      (h.bucket j insideJ).held_used held
    refine ⟨?_, changed.other r (fun eq => out (.inl eq)) (fun mem => out (.inr mem)) used⟩
    rintro (eq | mem)
    · exact out (.inl eq)
    · rcases changed.fresh r mem with old | eq | ⟨id, eq, new⟩
      · exact out (.inr old)
      · exact out (.inl eq)
      · exact new (used id eq)
  refine ⟨fun j insideJ => ?_, fun j outside => ?_, fun a b r insideA insideB heldA heldB => ?_⟩
  · by_cases same : j = i
    · subst same
      rw [update_self]
      exact changed.bucket
    · rw [update_of_ne same]
      exact (h.bucket j insideJ).frame fun r held => (kept j r same insideJ held).2
  · have ne : j ≠ i := fun eq => outside (eq ▸ inside)
    rw [update_of_ne ne]
    exact h.beyond j outside
  · by_contra ne
    obtain ⟨rfl, new⟩ | ⟨sameA, heldA⟩ := of_update (P := (Held (roots a) · r)) heldA
    · rw [update_of_ne (Ne.symm ne)] at heldB
      exact (kept b r (Ne.symm ne) insideB heldB).1 new
    obtain ⟨rfl, new⟩ | ⟨_, heldB⟩ := of_update (P := (Held (roots b) · r)) heldB
    · exact (kept a r sameA insideA ‹_›).1 new
    · exact ne (h.apart a b r insideA insideB heldA heldB)

end Family

theorem insertItem_perm (l : List (K × V)) (e : K × V) : (insertItem l e).Perm (e :: l) := by
  cases l with
  | nil => exact .refl _
  | cons first rest => exact .swap ..

theorem first_of_nodup (nodup : ((items l).map Prod.fst).Nodup) {n : Nat}
    (at_n : l[n]? = some (r, (key, value))) :
    ∀ j < n, ∀ r' e, l[j]? = some (r', e) → e.1 ≠ key := by
  intro j lt r' e at_j same
  have key_n : ((items l).map Prod.fst)[n]? = some key := by
    rw [items, getElem?_map, getElem?_map, at_n]
    rfl
  have key_j : ((items l).map Prod.fst)[j]? = some key := by
    rw [items, getElem?_map, getElem?_map, at_j, ← same]
    rfl
  have inside := (List.getElem?_eq_some_iff.mp key_j).1
  have := (getElem?_inj inside nodup).mp (key_j.trans key_n.symm)
  omega

section Loop
variable [DecidableEq K]

/-- One round of a loop that iterates over a list and moves entries to another one. -/
def moveFound (pick : Picks) (limit : Nat) (moves : K → Bool) (startList endList : Rid)
    (st : Store K V) (key : K) (value : V) : Except Stop (Store K V) :=
  if moves key then do
    let (st, _) ← tlinkedListRemove limit st startList key
    insertHelper pick st endList key value
  else .ok st

/-- The loop, with the pairs that it has met. -/
def moveLoop (pick : Picks) (limit : Nat) (moves : K → Bool) (startList endList : Rid) :
    Nat → Store K V → Iterator → Except Stop (Store K V × List (K × V))
  | 0, _, _ => .error .waits
  | fuel + 1, st, it => do
      let (it, pair) ← tlinkedListNext st it
      match pair with
      | none => .ok (st, [])
      | some (key, value) => do
          let st ← moveFound pick limit moves startList endList st key value
          let (st, pairs) ← moveLoop pick limit moves startList endList fuel st it
          .ok (st, (key, value) :: pairs)

variable [DecidableEq ι] {b : ι}

/-- The entries in front of the iterator stay. -/
theorem moveLoop_spec (fresh : ∀ t ids, pick t ids ∉ ids) (moves : K → Bool) (ne : a ≠ b)
    (insideA : Inside a) (insideB : Inside b) {st : Store K V} (h : Family st roots Inside lists)
    (nodup : ((items (lists a)).map Prod.fst).Nodup) (place : it.At (roots a) (lists a) n)
    (enough : (lists a).length ≤ limit) (rounds : (lists a).length - n < fuel) :
    ∃ st' lists', moveLoop pick limit moves (roots a) (roots b) fuel st it =
        .ok (st', (items (lists a)).drop n) ∧ Family st' roots Inside lists' ∧
      (∀ j, j ≠ a → j ≠ b → lists' j = lists j) ∧
      items (lists' a) = (items (lists a)).take n ++
        ((items (lists a)).drop n).filter (fun e => !moves e.1) ∧
      (items (lists' b)).Perm (items (lists b) ++
        ((items (lists a)).drop n).filter fun e => moves e.1) := by
  induction fuel generalizing n st it lists with
  | zero => omega
  | succ fuel ih =>
    have bucket := h.bucket a insideA
    cases at_n : (lists a)[n]? with
    | none =>
      have behind := List.getElem?_eq_none_iff.mp at_n
      obtain ⟨it', next⟩ := tlinkedListNext_none bucket place behind
      have rest : (items (lists a)).drop n = [] := by
        rw [items, drop_eq_nil_iff, length_map]
        exact behind
      rw [rest]
      refine ⟨st, lists, bind_ok next rfl, h, fun _ _ _ => rfl, ?_, ?_⟩
      · rw [filter_nil, append_nil, take_of_length_le]
        exact drop_eq_nil_iff.mp rest
      · rw [filter_nil, append_nil]
    | some p =>
      obtain ⟨r, key, value⟩ := p
      have inside := (List.getElem?_eq_some_iff.mp at_n).1
      obtain ⟨it', next, passed⟩ := tlinkedListNext_some bucket place at_n
      have here : (items (lists a))[n]? = some (key, value) := by
        rw [items, getElem?_map, at_n]
        rfl
      have dropped : (items (lists a)).drop n = (key, value) :: (items (lists a)).drop (n + 1) :=
        drop_eq_getElem?_toList_append.trans (by rw [here]; rfl)
      cases moving : moves key with
      | false =>
        obtain ⟨st', lists', loop, family, others, keeps, moved⟩ :=
          ih h nodup (passed.keep inside) enough (by omega)
        refine ⟨st', lists', bind_ok next ?_, family, others, ?_, ?_⟩
        · rw [dropped]
          refine bind_ok ?_ (bind_ok loop rfl)
          rw [moveFound, moving]
          rfl
        · rw [keeps, dropped, filter_cons_of_pos (by simp [moving]), take_add_one, here,
            append_assoc]
          rfl
        · rw [dropped, filter_cons_of_neg (by simp [moving])]
          exact moved
      | true =>
        obtain ⟨st1, removed, changed1, _⟩ :=
          tlinkedListRemove_hit bucket at_n (first_of_nodup nodup at_n) enough
        have h1 := h.step insideA changed1
        obtain ⟨st2, l2, inserted, items2, changed2⟩ :=
          insertHelper_spec fresh (h1.bucket b insideB) key value
        have h2 := h1.step insideB changed2
        rw [update_of_ne ne.symm] at items2
        generalize mid : update (update lists a (unlinkAt (lists a) n)) b l2 =
          lists2 at h2
        have listA : lists2 a = unlinkAt (lists a) n := by
          rw [← mid, update_of_ne ne, update_self]
        have listB : lists2 b = l2 := by rw [← mid, update_self]
        have left : (unlinkAt (lists a) n).length + 1 = (lists a).length := by
          have counted := congrArg List.length (items_unlinkAt (lists a) n)
          rw [items, items, length_map, length_eraseIdx, length_map,
            if_pos inside] at counted
          omega
        have back : ((items (lists a)).eraseIdx n).drop n = (items (lists a)).drop (n + 1) := by
          rw [eraseIdx_eq_take_drop_succ]
          refine drop_left' ?_
          rw [length_take, items, length_map]
          omega
        obtain ⟨st', lists', loop, family, others, keeps, moved⟩ := ih h2
          (by
            rw [listA, items_unlinkAt]
            exact nodup.sublist ((eraseIdx_sublist ..).map _))
          (by rw [listA]; exact passed.unlink bucket inside)
          (by rw [listA]; omega) (by rw [listA]; omega)
        rw [listA, items_unlinkAt, back] at loop moved
        rw [listA, items_unlinkAt, back, take_eraseIdx_eq_take_of_le _ n n (Nat.le_refl n)]
          at keeps
        rw [listB, items2] at moved
        refine ⟨st', lists', bind_ok next ?_, family, fun j neA neB => ?_, ?_, ?_⟩
        · rw [dropped]
          refine bind_ok ?_ (bind_ok loop rfl)
          rw [moveFound, moving]
          exact bind_ok removed inserted
        · rw [others j neA neB, ← mid, update_of_ne neB, update_of_ne neA]
        · rw [keeps, dropped, filter_cons_of_neg (by simp [moving])]
        · rw [dropped, filter_cons_of_pos (by simp [moving])]
          exact moved.trans (((insertItem_perm _ _).append_right _).trans perm_middle.symm)

end Loop

section Move
variable {st : Store K V} {startList endList : Rid} {l l' : Nodes K V}

def pairOf {α : Type} (x y : α) : Bool → α
  | false => x
  | true => y

theorem Family.pair (start : Listed st startList l) (target : Listed st endList l')
    (apart : ∀ r, Held startList l r → ¬ Held endList l' r) :
    Family st (pairOf startList endList) (fun _ => True) (pairOf l l') := by
  refine ⟨fun i _ => ?_, fun i out => absurd trivial out, fun i j r _ _ here there => ?_⟩
  · cases i with
    | false => exact start
    | true => exact target
  · cases i with
    | false =>
      cases j with
      | false => rfl
      | true => exact absurd there (apart r here)
    | true =>
      cases j with
      | false => exact absurd here (apart r there)
      | true => rfl

variable [DecidableEq K] {fuel : Nat}

/-- What a move should do: the first entry with the key goes from one list to the other. -/
def Moves (startList endList : Rid) (l l' : Nodes K V) (key : K) :
    Except Stop (Store K V × Bool) → Prop
  | .error _ => False
  | .ok (st, ret) => ∃ m m', Listed st startList m ∧ Listed st endList m' ∧
      items m = (items l).eraseP (fun e => e.1 = key) ∧
      items m' = ((lookupItem (items l) key).elim (items l') fun value =>
        insertItem (items l') (key, value)) ∧
      ret = (lookupItem (items l) key).isSome

/-- A move does nothing if the key is there, and crashes if it is not. -/
theorem tlinkedListMove_never_moves (start : Listed st startList l) (target : Listed st endList l')
    (enough : l.length ≤ fuel) (key : K) :
    tlinkedListMove fuel st startList endList key =
        (if (lookupItem (items l) key).isSome then .ok (st, false) else .error .fails) ∧
      ¬ Moves startList endList l l' key (tlinkedListMove fuel st startList endList key) := by
  have find : tlinkedListFind fuel st startList key = _ := tlinkedListFind_spec start enough
  cases found : lookupItem (items l) key with
  | some value =>
    have kept : tlinkedListMove fuel st startList endList key = .ok (st, false) := by
      refine bind_ok find ?_
      rw [found]
      rfl
    refine ⟨kept, ?_⟩
    rw [kept]
    rintro ⟨_, _, _, _, _, _, ret⟩
    rw [found] at ret
    cases ret
  | none =>
    have there : ∃ entry, st.tread endList = .ok entry := by
      cases l' with
      | nil => exact ⟨.empty, by rw [Store.tread, show st.records endList = _ from target.root]⟩
      | cons p l' => exact ⟨_, target.tread (i := 0) (congrArg some (Prod.ext target.root rfl))⟩
    obtain ⟨entry, read⟩ := there
    have crashes : tlinkedListMove fuel st startList endList key = .error .fails := by
      refine bind_ok find ?_
      rw [found]
      exact bind_ok (tlinkedListRemove_miss start found enough) (bind_ok read rfl)
    refine ⟨crashes, ?_⟩
    rw [crashes]
    exact id

end Move

theorem foldr_max_lt {l : List Nat} {id : Nat} (mem : id ∈ l) : id < l.foldr max 0 + 1 := by
  induction l with
  | nil => cases mem
  | cons a l ih =>
    rw [foldr_cons]
    cases mem with
    | head => omega
    | tail _ later =>
      have := ih later
      omega

def highest : Picks := fun _ ids => ids.foldr max 0 + 1

theorem highest_fresh (t : Nat) (ids : List Nat) : highest t ids ∉ ids :=
  fun mem => absurd (foldr_max_lt mem) (lt_irrefl _)

/-- A list of three entries, and one without entries. -/
def twoLists : Except Stop (Store Nat Nat × Rid × Rid) := do
  let (st, list) ← tlinkedListCreate highest ⟨fun _ => none, [], 0⟩
  let st ← insertHelper highest st list 1 10
  let st ← insertHelper highest st list 2 20
  let st ← insertHelper highest st list 3 30
  let (st, other) ← tlinkedListCreate highest st
  .ok (st, list, other)

def threeEntries : Store Nat Nat := (twoLists.toOption.map Prod.fst).getD ⟨fun _ => none, [], 0⟩

def threeNodes : Nodes Nat Nat :=
  [(.record 1, (1, 10)), (.record 3, (3, 30)), (.record 2, (2, 20))]

theorem twoLists_eq : twoLists = .ok (threeEntries, .record 1, .record 4) := rfl

theorem threeEntries_listed : Listed threeEntries (.record 1) threeNodes := by
  refine ⟨rfl, fun i r e at_i => ?_, fun i r e at_i => ?_, fun id eq => ?_⟩
  · match i with
    | 0 | 1 | 2 =>
      cases at_i
      rfl
    | i + 3 => cases at_i
  · match i with
    | 0 | 1 =>
      cases at_i
      exact ⟨_, by decide, rfl⟩
    | i + 2 => cases at_i
  · cases eq
    decide

theorem threeEntries_empty : Listed threeEntries (.record 4) [] := by
  refine ⟨rfl, fun i r e at_i => ?_, fun i r e at_i => ?_, fun id eq => ?_⟩
  · cases at_i
  · cases at_i
  · cases eq
    decide

theorem threeEntries_apart (r : Rid) (here : Held (.record 1) threeNodes r) :
    ¬ Held (.record 4) ([] : Nodes Nat Nat) r := by
  rintro (rfl | mem)
  · revert here
    unfold Held
    decide
  · cases mem

theorem tlinkedListMove_never_moves_three :
    ¬ Moves (.record 1) (.record 4) threeNodes [] 3
      (tlinkedListMove 3 threeEntries (.record 1) (.record 4) 3) :=
  (tlinkedListMove_never_moves threeEntries_listed threeEntries_empty (by decide) 3).2

/-- An entry that is there stays, and the call for one that is not crashes. -/
theorem tlinkedListMove_keeps :
    twoLists = .ok (threeEntries, .record 1, .record 4) ∧
    tlinkedListFind 3 threeEntries (.record 1) 3 = .ok (some 30) ∧
    tlinkedListMove 3 threeEntries (.record 1) (.record 4) 3 = .ok (threeEntries, false) ∧
    tlinkedListMove 3 threeEntries (.record 1) (.record 4) 7 = .error .fails :=
  ⟨twoLists_eq, rfl, rfl, rfl⟩

end Stasis.LinkedList
