import Mathlib.Data.List.InsertIdx
import Stasis.Operations.LinkedList

/-!
What the operations on a linked list do.

A list starts at a record that stays, which for a bucket is a slot of the array list. Each
operation makes another list of it, and leaves the records of the other lists alone.
-/
namespace Stasis.LinkedList
open Chains Fallible Function List Option
export Chains (Linked)

variable {K V : Type}

def nodeOf : Option (Entry K V) → Option (Node Rid (K × V))
  | some (.entry next key value) => some ⟨next, (key, value)⟩
  | _ => none

def Store.heap (st : Store K V) : Rid → Option (Node Rid (K × V)) := nodeOf ∘ st.records

abbrev Nodes (K V : Type) := List (Rid × (K × V))

/-- The first entry of the list is in the record that stays, which is empty if there is none. -/
def Rooted (st : Store K V) (list : Rid) : Nodes K V → Prop
  | [] => st.records list = some .empty
  | p :: _ => p.1 = list

structure Listed (st : Store K V) (list : Rid) (l : Nodes K V) : Prop where
  root : Rooted st list l
  linked : Linked st.heap l
  used : ∀ i r e, l[i + 1]? = some (r, e) → ∃ id ∈ st.used, r = .record id
  own : ∀ id, list = .record id → id ∈ st.used

abbrev Bucket (st : Store K V) (slot : Nat) (l : Nodes K V) : Prop := Listed st (.bucket slot) l

theorem heap_eq_some {st : Store K V} {next : Option Rid} :
    st.heap r = some ⟨next, e⟩ ↔ st.records r = some (.entry next e.1 e.2) := by
  rw [Store.heap, Function.comp_apply]
  cases found : st.records r with
  | none => simp [nodeOf]
  | some entry =>
    cases entry with
    | empty => simp [nodeOf]
    | entry next0 key value =>
      simp only [nodeOf, some.injEq, Node.mk.injEq, Entry.entry.injEq, Prod.ext_iff]

/-- The operations of one bucket, as the others see them. -/
structure Changed (st st' : Store K V) (list : Rid) (l l' : Nodes K V) : Prop where
  bucket : Listed st' list l'
  fresh : ∀ r ∈ addresses l', r ∈ addresses l ∨ r = list ∨ ∃ id, r = .record id ∧ id ∉ st.used
  other : ∀ r, r ≠ list → r ∉ addresses l → (∀ id, r = .record id → id ∈ st.used) →
    st'.records r = st.records r ∧ ∀ id, r = .record id → id ∈ st'.used

section Reads
variable {st : Store K V} {l : Nodes K V}

section
variable (h : Listed st list l)
include h

theorem Listed.read (at_i : l[i]? = some (r, e)) :
    st.records r = some (.entry (nextOf l (i + 1)) e.1 e.2) :=
  heap_eq_some.mp (h.linked i r e at_i)

theorem Listed.tread (at_i : l[i]? = some (r, e)) :
    st.tread r = .ok (.entry (nextOf l (i + 1)) e.1 e.2) := by
  rw [Store.tread, h.read at_i]

theorem Listed.ne_root (at_i : l[i + 1]? = some (r, e)) : r ≠ list := by
  cases l with
  | nil => cases at_i
  | cons p l =>
    rintro rfl
    have first : (p :: l)[0]? = some (r, p.2) := congrArg some (Prod.ext h.root rfl)
    exact Nat.noConfusion (h.linked.inj at_i first)

end

theorem tset_ok {r : Rid} (there : (st.records r).isSome) (entry : Entry K V) :
    st.tset r entry = .ok (st.put r (some entry)) := by
  obtain ⟨old, eq⟩ := isSome_iff_exists.mp there
  rw [Store.tset, eq]

theorem tdealloc_ok {id : Nat} (there : st.records (.record id) = some old) :
    st.tdealloc (.record id) =
      .ok { st.put (.record id) none with used := st.used.erase id } := by
  simp only [Store.tdealloc, there]

theorem heap_put (st : Store K V) (r : Rid) (entry : Option (Entry K V)) :
    (st.put r entry).heap = update st.heap r (nodeOf entry) :=
  Function.comp_update ..

end Reads

/-- Where an insertion puts its entry. -/
def insertItem (l : List (K × V)) (e : K × V) : List (K × V) :=
  match l with
  | [] => [e]
  | first :: rest => first :: e :: rest

theorem insertHelper_spec (fresh : ∀ t ids, pick t ids ∉ ids) (h : Listed st list l) (key : K)
    (value : V) : ∃ st' l', insertHelper pick st list key value = .ok st' ∧
      items l' = insertItem (items l) (key, value) ∧ Changed st st' list l l' := by
  cases l with
  | nil =>
    have root : st.records list = some .empty := h.root
    refine ⟨st.put list (some (.entry none key value)), [(list, (key, value))],
      ?_, rfl, ⟨rfl, fun i r e at_i => ?_, fun i r e at_i => (by cases at_i), h.own⟩, fun r mem => ?_,
      fun r ne _ used => ⟨update_of_ne ne .., used⟩⟩
    · rw [insertHelper, Store.tread, root]
      exact tset_ok (isSome_of_eq_some root) _
    · cases i with
      | zero =>
        cases at_i
        exact heap_eq_some.mpr (update_self ..)
      | succ i => cases at_i
    · exact .inr (.inl (mem_singleton.mp mem))
  | cons p l =>
    obtain ⟨r0, key0, value0⟩ := p
    obtain rfl : list = r0 := h.root.symm
    have first := h.read (i := 0) rfl
    have new := fresh st.clock st.used
    obtain ⟨id, picked⟩ : ∃ id, pick st.clock st.used = id := ⟨_, rfl⟩
    rw [picked] at new
    have apart : list ≠ .record id := fun eq => new (h.own id eq)
    have notMem : Rid.record id ∉ addresses ((list, (key0, value0)) :: l) := by
      intro mem
      obtain ⟨i, e, at_i⟩ := mem_addresses_iff.mp mem
      cases i with
      | zero =>
        cases at_i
        exact apart rfl
      | succ i =>
        obtain ⟨id', used, eq⟩ := h.used i _ e at_i
        cases eq
        exact new used
    refine ⟨(({ st.put (.record id) (some .empty) with
          used := id :: st.used
          clock := st.clock + 1 } : Store K V).put (.record id)
            (some (.entry (nextOf l 0) key value))).put list
              (some (.entry (some (.record id)) key0 value0)),
      (list, (key0, value0)) :: (.record id, (key, value)) :: l, ?_, rfl,
      ⟨rfl, ?_, fun i r e at_i => ?_, fun id' eq => mem_cons_of_mem id (h.own id' eq)⟩,
      fun r mem => ?_, fun r ne out used => ⟨?_, fun id' eq => ?_⟩⟩
    · have taken : st.talloc pick = ({ st.put (.record id) (some .empty) with
          used := id :: st.used
          clock := st.clock + 1 }, .record id) := by
        rw [Store.talloc, picked]
      rw [insertHelper, Store.tread, first]
      refine bind_ok rfl ?_
      simp only [taken]
      refine bind_ok (tset_ok (by simp [Store.put]) _) ?_
      exact tset_ok (by simp [Store.put, apart, first]) _
    · have linked := h.linked.insertSecond (y := (key, value)) notMem
      rw [heap_put, heap_put]
      show Linked (update (update (st.put (.record id) (some .empty)).heap _ _) _ _) _
      rw [heap_put, update_idem]
      exact linked
    · cases i with
      | zero =>
        cases at_i
        exact ⟨id, mem_cons_self, rfl⟩
      | succ i =>
        obtain ⟨id', used, eq⟩ := h.used i r e at_i
        exact ⟨id', mem_cons_of_mem id used, eq⟩
    · cases mem_cons.mp mem with
      | inl root => exact .inr (.inl root)
      | inr mem =>
        cases mem_cons.mp mem with
        | inl new' => exact .inr (.inr ⟨id, new', new⟩)
        | inr old => exact .inl (mem_cons_of_mem _ old)
    · have ne' : r ≠ .record id := fun eq => new (used id eq)
      exact (update_of_ne ne ..).trans ((update_of_ne ne' ..).trans
        (update_of_ne ne' ..))
    · exact mem_cons_of_mem id (used id' eq)

section Find
variable [DecidableEq K] {l : Nodes K V} {key : K}

/-- The value of the first entry with the key. -/
def lookupItem (l : List (K × V)) (key : K) : Option V :=
  (l.find? fun e => e.1 = key).map Prod.snd

omit [DecidableEq K] in
theorem nextOf_eq_none (h : nextOf l n = none) : l.drop n = [] := by
  rw [nextOf, map_eq_none_iff, List.getElem?_eq_none_iff] at h
  exact drop_eq_nil_of_le h

omit [DecidableEq K] in
theorem items_drop (at_i : l[i]? = some (r, e)) :
    items (l.drop i) = e :: items (l.drop (i + 1)) := by
  obtain ⟨lt, eq⟩ := List.getElem?_eq_some_iff.mp at_i
  rw [drop_eq_getElem_cons lt, eq, items_cons]

theorem findLoop_spec (h : Listed st list l) (at_i : l[i]? = some (r, e))
    (enough : l.length - i ≤ fuel) :
    findLoop st key fuel (.entry (nextOf l (i + 1)) e.1 e.2) =
      .ok (lookupItem (items (l.drop i)) key) := by
  induction fuel generalizing i r e with
  | zero =>
    have := (List.getElem?_eq_some_iff.mp at_i).1
    omega
  | succ fuel ih =>
    rw [items_drop at_i, lookupItem, find?_cons]
    cases next : nextOf l (i + 1) with
    | none =>
      rw [findLoop, nextOf_eq_none next]
      by_cases same : e.1 = key
      · rw [if_pos same, decide_eq_true same]
        rfl
      · rw [if_neg same, decide_eq_false same]
        rfl
    | some r' =>
      obtain ⟨p, at_p, eq⟩ := map_eq_some_iff.mp next
      obtain rfl : p.1 = r' := eq
      rw [findLoop, h.tread at_p]
      by_cases same : e.1 = key
      · rw [decide_eq_true same]
        exact if_pos same
      · rw [decide_eq_false same]
        refine (if_neg same).trans ?_
        exact ih at_p (by omega)

theorem tlinkedListFind_spec (h : Listed st list l) (enough : l.length ≤ fuel) :
    tlinkedListFind fuel st list key = .ok (lookupItem (items l) key) := by
  rw [tlinkedListFind]
  cases l with
  | nil =>
    have root : st.records list = some .empty := h.root
    rw [Store.tread, root]
    rfl
  | cons p l =>
    obtain ⟨r, e⟩ := p
    obtain rfl : list = r := h.root.symm
    rw [h.tread (i := 0) rfl]
    exact findLoop_spec h (i := 0) rfl enough

end Find

/-- What a removal at place `m` leaves: the first entry is overwritten by the second one. -/
def unlinkAt (l : Nodes K V) : Nat → Nodes K V
  | 0 =>
    match l with
    | p :: q :: rest => (p.1, q.2) :: rest
    | _ => []
  | m + 1 => l.eraseIdx (m + 1)

theorem items_unlinkAt (l : Nodes K V) (m : Nat) : items (unlinkAt l m) = (items l).eraseIdx m := by
  cases m with
  | zero =>
    cases l with
    | nil => rfl
    | cons p l =>
      cases l with
      | nil => rfl
      | cons q l => rfl
  | succ m => exact (eraseIdx_map ..).symm

/-- A removal frees one record of the list, and none if it leaves the list empty. -/
def Freed (st st' : Store K V) (l : Nodes K V) : Prop :=
  match l with
  | [_] => st'.used = st.used
  | _ => ∃ id ∈ st.used, .record id ∈ addresses l ∧ st'.used = st.used.erase id ∧
      st'.records (.record id) = none

section Remove
variable {st : Store K V} {l : Nodes K V} {key : K} {m : Nat} {value : V}

theorem Listed.unlink (h : Listed st list l) {n id : Nat} (at_p : l[n]? = some (p, x))
    (at_q : l[n + 1]? = some (.record id, y)) :
    Changed st { (st.put p (some (.entry (nextOf l (n + 2)) x.1 x.2))).put (.record id) none with
      used := st.used.erase id } list l (l.eraseIdx (n + 1)) := by
  have mem_p := mem_addresses at_p
  have mem_q := mem_addresses at_q
  have still : ∀ i r e, (l.eraseIdx (n + 1))[i]? = some (r, e) →
      ∃ j, l[j]? = some (r, e) ∧ j ≠ n + 1 ∧ (0 < i → 0 < j) := by
    intro i r e at_i
    rw [getElem?_eraseIdx] at at_i
    split at at_i
    · exact ⟨i, at_i, by omega, fun pos => pos⟩
    · exact ⟨i + 1, at_i, by omega, by omega⟩
  refine ⟨⟨?_, ?_, fun i r e at_i => ?_, fun id' eq => ?_⟩, fun r mem => ?_,
    fun r _ out used => ⟨?_, fun id' eq => ?_⟩⟩
  · cases l with
    | nil => cases at_p
    | cons first rest => exact h.root
  · have linked := h.linked.unlink at_p at_q
    show Linked (Store.heap (Store.put (Store.put st _ _) _ _)) _
    rw [heap_put, heap_put]
    exact linked
  · obtain ⟨j, at_j, ne, pos⟩ := still (i + 1) r e at_i
    obtain ⟨j, rfl⟩ : ∃ k, j = k + 1 := ⟨j - 1, by have := pos (Nat.succ_pos i); omega⟩
    obtain ⟨id', used, rfl⟩ := h.used j r e at_j
    refine ⟨id', (mem_erase_of_ne fun same => ?_).mpr used, rfl⟩
    exact ne (h.linked.inj (same ▸ at_j) at_q)
  · refine (mem_erase_of_ne fun same => ?_).mpr (h.own id' eq)
    exact h.ne_root at_q (same ▸ eq.symm)
  · obtain ⟨i, e, at_i⟩ := mem_addresses_iff.mp mem
    obtain ⟨j, at_j, _⟩ := still i r e at_i
    exact .inl (mem_addresses at_j)
  · have ne_p : r ≠ p := fun eq => out (eq ▸ mem_p)
    have ne_q : r ≠ .record id := fun eq => out (eq ▸ mem_q)
    exact (update_of_ne ne_q ..).trans (update_of_ne ne_p ..)
  · refine (mem_erase_of_ne fun same => ?_).mpr (used id' eq)
    exact out (by rw [eq, same]; exact mem_q)

theorem Listed.pullUp {id : Nat} (h : Listed st list ((list, x) :: (.record id, y) :: l)) :
    Changed st ({ st.put (.record id) none with used := st.used.erase id }.put list
      (some (.entry (nextOf l 0) y.1 y.2))) list ((list, x) :: (.record id, y) :: l)
      ((list, y) :: l) := by
  have apart : Rid.record id ≠ list := h.ne_root (i := 0) rfl
  refine ⟨⟨rfl, ?_, fun i r e at_i => ?_, fun id' eq => ?_⟩, fun r mem => ?_,
    fun r ne out used => ⟨?_, fun id' eq => ?_⟩⟩
  · have linked := h.linked.pullUp
    rw [heap_put]
    show Linked (update (Store.put st _ _).heap _ _) _
    rw [heap_put]
    exact linked
  · have old : ((list, x) :: (Rid.record id, y) :: l)[i + 2]? = some (r, e) := at_i
    obtain ⟨id', used, rfl⟩ := h.used (i + 1) r e old
    refine ⟨id', (mem_erase_of_ne fun same => ?_).mpr used, rfl⟩
    exact Nat.noConfusion (Nat.succ.inj (h.linked.inj (same ▸ old) (j := 1) rfl))
  · refine (mem_erase_of_ne fun same => ?_).mpr (h.own id' eq)
    exact apart (same ▸ eq.symm)
  · cases mem_cons.mp mem with
    | inl root => exact .inr (.inl root)
    | inr rest => exact .inl (mem_cons_of_mem _ (mem_cons_of_mem _ rest))
  · have ne_q : r ≠ .record id := fun eq => out (eq ▸ mem_cons_of_mem _ mem_cons_self)
    exact (update_of_ne ne ..).trans (update_of_ne ne_q ..)
  · refine (mem_erase_of_ne fun same => ?_).mpr (used id' eq)
    exact out (by rw [eq, same]; exact mem_cons_of_mem _ mem_cons_self)

variable [DecidableEq K]

section
variable (h : Listed st list l) (hit : l[m]? = some (q, (key, value)))
  (miss : ∀ j < m, ∀ r e, l[j]? = some (r, e) → e.1 ≠ key)
include h hit miss

theorem removeLoop_spec {n : Nat} (at_p : l[n]? = some (p, x)) (at_r : l[n + 1]? = some (r, e))
    (le : n + 1 ≤ m) (enough : m - n ≤ fuel) :
    ∃ st', removeLoop st key fuel p r (.entry (nextOf l (n + 2)) e.1 e.2) = .ok (st', true) ∧
      Changed st st' list l (l.eraseIdx m) ∧ ∃ id ∈ st.used, .record id ∈ addresses l ∧
        st'.used = st.used.erase id ∧ st'.records (.record id) = none := by
  induction fuel generalizing n p r x e with
  | zero => omega
  | succ fuel ih =>
    unfold removeLoop
    by_cases here : n + 1 = m
    · subst here
      cases at_r.symm.trans hit
      obtain ⟨id, used, rfl⟩ := h.used n _ _ hit
      rw [if_pos rfl, h.tread at_p]
      have ne : Rid.record id ≠ p := fun eq => by
        have := h.linked.inj (eq ▸ hit) at_p
        omega
      have first := tset_ok (isSome_of_eq_some (h.read at_p))
        (.entry (nextOf l (n + 2)) x.1 x.2)
      have there := (update_of_ne ne
        (some (.entry (nextOf l (n + 2)) x.1 x.2)) st.records).trans (h.read hit)
      refine ⟨_, bind_ok rfl (bind_ok first ?_), h.unlink at_p hit,
        id, used, mem_addresses hit, rfl, update_self ..⟩
      exact bind_ok (tdealloc_ok there) rfl
    · rw [if_neg (miss (n + 1) (by omega) r e at_r)]
      obtain ⟨s, at_s⟩ : ∃ s, l[n + 2]? = some s :=
        ⟨_, getElem?_eq_getElem (by have := (List.getElem?_eq_some_iff.mp hit).1; omega)⟩
      have next : nextOf l (n + 2) = some s.1 := by rw [nextOf, at_s]; rfl
      rw [next]
      obtain ⟨st', loop, changed⟩ := ih at_r at_s (by omega) (by omega)
      exact ⟨st', bind_ok (h.tread at_s) loop, changed⟩

theorem removeHelper_spec (enough : l.length ≤ fuel) :
    ∃ st', removeHelper fuel st list key = .ok (st', true) ∧
      Changed st st' list l (unlinkAt l m) ∧ Freed st st' l := by
  have inside := (List.getElem?_eq_some_iff.mp hit).1
  cases l with
  | nil => cases hit
  | cons first l =>
    obtain ⟨r, x⟩ := first
    obtain rfl : list = r := h.root.symm
    rw [removeHelper, h.tread (i := 0) rfl]
    cases m with
    | zero =>
      cases hit
      cases l with
      | nil =>
        have set := tset_ok (isSome_of_eq_some (h.read (i := 0) rfl)) .empty
        refine ⟨st.put list (some .empty), ?_, ⟨⟨update_self .., ?_, ?_, h.own⟩,
          ?_, fun r ne _ used => ⟨update_of_ne ne .., used⟩⟩, rfl⟩
        · exact bind_ok rfl ((if_pos rfl).trans (bind_ok set rfl))
        · exact fun i r e at_i => by cases at_i
        · exact fun i r e at_i => by cases at_i
        · exact fun r mem => absurd mem not_mem_nil
      | cons second l =>
        obtain ⟨r, y⟩ := second
        obtain ⟨id, used, rfl⟩ := h.used 0 r y rfl
        have ne : list ≠ .record id := (h.ne_root (i := 0) rfl).symm
        refine ⟨_, bind_ok rfl ((if_pos rfl).trans ?_), h.pullUp,
          id, used, mem_addresses (i := 1) rfl, rfl, ?_⟩
        rotate_left
        · exact (update_of_ne ne.symm ..).trans (update_self ..)
        refine bind_ok (h.tread (i := 1) rfl) ?_
        refine bind_ok (tdealloc_ok (h.read (i := 1) rfl)) ?_
        refine bind_ok (tset_ok ?_ _) rfl
        simp [Store.put, ne, h.read (i := 0) rfl]
    | succ m =>
      have ne := miss 0 (Nat.succ_pos m) _ x rfl
      cases l with
      | nil => cases hit
      | cons second l =>
        obtain ⟨st', loop, changed⟩ := removeLoop_spec h hit miss (n := 0) rfl rfl
          (Nat.succ_le_succ (Nat.zero_le m)) (le_trans (le_of_lt inside) enough)
        refine ⟨st', bind_ok rfl ((if_neg ne).trans ?_), changed⟩
        exact bind_ok (h.tread (i := 1) rfl) loop

end

section
variable (hit : l[m]? = some (q, (key, value)))
  (miss : ∀ j < m, ∀ r e, l[j]? = some (r, e) → e.1 ≠ key)
include hit miss

theorem findIdx_hit : (items l).findIdx? (fun e => e.1 = key) = some m := by
  induction l generalizing m with
  | nil => cases hit
  | cons p l ih =>
    rw [items_cons, findIdx?_cons]
    cases m with
    | zero =>
      cases hit
      exact if_pos (decide_eq_true rfl)
    | succ m =>
      rw [decide_eq_false (miss 0 (Nat.succ_pos m) p.1 p.2 rfl),
        ih hit fun j lt => miss (j + 1) (Nat.succ_lt_succ lt)]
      rfl

theorem lookupItem_hit : lookupItem (items l) key = some value := by
  rw [lookupItem, find?_eq_bind_findIdx?_getElem?, findIdx_hit hit miss, bind_some, items,
    getElem?_map, hit]
  rfl

theorem eraseIdx_hit : (items l).eraseIdx m = (items l).eraseP fun e => e.1 = key := by
  rw [eraseP_eq_eraseIdx, findIdx_hit hit miss]

end

theorem lookupItem_eq_none {l : List (K × V)} :
    lookupItem l key = none ↔ ∀ e ∈ l, e.1 ≠ key := by
  rw [lookupItem, map_eq_none_iff, find?_eq_none]
  simp only [decide_eq_true_eq]

theorem exists_hit (there : lookupItem (items l) key ≠ none) : ∃ (m : Nat) (q : Rid) (value : V),
    l[m]? = some (q, (key, value)) ∧ ∀ j < m, ∀ r e, l[j]? = some (r, e) → e.1 ≠ key := by
  induction l with
  | nil => exact absurd rfl there
  | cons p l ih =>
    obtain ⟨r, key0, value0⟩ := p
    by_cases same : key0 = key
    · subst same
      exact ⟨0, r, value0, rfl, fun j lt => absurd lt (Nat.not_lt_zero j)⟩
    · obtain ⟨m, q, value, hit, miss⟩ := ih fun absent => there (by
        rw [lookupItem_eq_none] at absent ⊢
        intro e mem
        cases mem_cons.mp mem with
        | inl first => exact first ▸ same
        | inr rest => exact absent e rest)
      refine ⟨m + 1, q, value, hit, fun j lt r' e at_j => ?_⟩
      cases j with
      | zero =>
        cases at_j
        exact same
      | succ j => exact miss j (Nat.lt_of_succ_lt_succ lt) r' e at_j

theorem tlinkedListRemove_hit (h : Listed st list l) (hit : l[m]? = some (q, (key, value)))
    (miss : ∀ j < m, ∀ r e, l[j]? = some (r, e) → e.1 ≠ key) (enough : l.length ≤ fuel) :
    ∃ st', tlinkedListRemove fuel st list key = .ok (st', true) ∧
      Changed st st' list l (unlinkAt l m) ∧ Freed st st' l := by
  obtain ⟨st', helper, changed⟩ := removeHelper_spec h hit miss enough
  refine ⟨st', bind_ok (tlinkedListFind_spec h enough) ?_, changed⟩
  rw [lookupItem_hit hit miss]
  exact bind_ok helper rfl

theorem tlinkedListRemove_miss (h : Listed st list l) (absent : lookupItem (items l) key = none)
    (enough : l.length ≤ fuel) : tlinkedListRemove fuel st list key = .ok (st, false) := by
  refine bind_ok (tlinkedListFind_spec h enough) ?_
  rw [absent]

end Remove

section
variable (it : Iterator) (list : Rid) (l : Nodes K V) (n : Nat)

/-- The iterator is in front of place `n` of the list. If the first entry is gone since it
returned it, it leads nowhere in the list. -/
def Iterator.At : Prop :=
  it.listRoot = list ∧
    match it.first with
    | .start => n = 0 ∧ it.next = some list
    | .root => n = 1 ∧ l ≠ [] ∧ it.next = nextOf l 1 ∨
        n = 0 ∧ (it.next = none ∧ l = [] ∨ ∃ r, it.next = some r ∧ r ∉ addresses l ∧ l ≠ [])
    | .later => 0 < n ∧ it.next = nextOf l n

/-- The iterator has just returned the entry at place `n`. -/
def Iterator.Passed : Prop :=
  it.listRoot = list ∧ it.first = (if n = 0 then .root else .later) ∧
    it.next = nextOf l (n + 1)

end

section Iterate
variable {it : Iterator}

theorem tlinkedListIterator_at (l : Nodes K V) (list : Rid) :
    (tlinkedListIterator list).At list l 0 :=
  ⟨rfl, rfl, rfl⟩

theorem Iterator.Passed.keep (h : it.Passed list l n) (inside : n < l.length) :
    it.At list l (n + 1) := by
  obtain ⟨root, first, next⟩ := h
  refine ⟨root, ?_⟩
  rw [first]
  cases n with
  | zero => exact .inl ⟨rfl, ne_nil_of_length_pos inside, next⟩
  | succ n => exact ⟨Nat.succ_pos _, next⟩

theorem Iterator.Passed.unlink (h : it.Passed list l n) (bucket : Listed st list l)
    (inside : n < l.length) : it.At list (unlinkAt l n) n := by
  obtain ⟨root, first, next⟩ := h
  refine ⟨root, ?_⟩
  rw [first]
  cases n with
  | zero =>
    cases l with
    | nil => cases inside
    | cons p l =>
      cases l with
      | nil => exact .inr ⟨rfl, .inl ⟨next, rfl⟩⟩
      | cons q l =>
        refine .inr ⟨rfl, .inr ⟨q.1, next, fun mem => ?_, cons_ne_nil _ _⟩⟩
        cases mem_cons.mp mem with
        | inl eq =>
          have same : (p :: q :: l)[0]? = some (q.1, p.2) := by rw [eq]; rfl
          exact Nat.noConfusion (bucket.linked.inj same (j := 1) rfl)
        | inr later =>
          obtain ⟨i, e, at_i⟩ := mem_addresses_iff.mp later
          have again : (p :: q :: l)[i + 2]? = some (q.1, e) := at_i
          have := bucket.linked.inj again (j := 1) rfl
          omega
  | succ n =>
    refine ⟨Nat.succ_pos n, next.trans ?_⟩
    rw [unlinkAt, nextOf, nextOf, getElem?_eraseIdx, if_neg (lt_irrefl _)]

theorem readNext_entry (h : Listed st list l) (at_n : l[n]? = some (r, e)) :
    readNext st it r = .ok ({ it with next := nextOf l (n + 1) }, some e) := by
  rw [readNext, h.tread at_n]
  rfl

theorem tlinkedListNext_some (h : Listed st list l) (place : it.At list l n)
    (at_n : l[n]? = some (r, e)) :
    ∃ it', tlinkedListNext st it = .ok (it', some e) ∧ it'.Passed list l n := by
  obtain ⟨root, here⟩ := place
  rw [tlinkedListNext]
  cases first : it.first with
  | start =>
    rw [first] at here
    obtain ⟨rfl, next⟩ := here
    have at_root : r = list := by
      cases l with
      | nil => cases at_n
      | cons p l =>
        cases at_n
        exact h.root
    rw [next]
    exact ⟨_, readNext_entry h (at_root ▸ at_n), root, rfl, rfl⟩
  | root =>
    rw [first] at here
    have start : ∃ x, l[0]? = some (list, x) := by
      cases l with
      | nil => cases at_n
      | cons p l => exact ⟨p.2, congrArg some (Prod.ext h.root rfl)⟩
    obtain ⟨x, at_zero⟩ := start
    rcases here with ⟨rfl, _, next⟩ | ⟨rfl, ⟨_, rfl⟩ | ⟨gone, next, out, _⟩⟩
    · have same : nextOf l 1 = some r := by rw [nextOf, at_n]; rfl
      rw [next, same]
      simp only
      rw [root, h.tread at_zero]
      refine ⟨_, (if_pos ?_).trans (readNext_entry h at_n), rfl, rfl, rfl⟩
      rw [same]
    · cases at_n
    · rw [next]
      simp only
      rw [root, h.tread at_zero]
      have moved : nextOf l 1 ≠ some gone := fun eq => out (nextOf_mem eq)
      cases at_zero.symm.trans at_n
      exact ⟨_, (if_neg moved).trans (readNext_entry h at_n), rfl, rfl, rfl⟩
  | later =>
    rw [first] at here
    obtain ⟨pos, next⟩ := here
    have same : nextOf l n = some r := by rw [nextOf, at_n]; rfl
    rw [next, same]
    refine ⟨_, readNext_entry h at_n, root, ?_, rfl⟩
    rw [if_neg (Nat.pos_iff_ne_zero.mp pos)]
    exact first

theorem tlinkedListNext_none (h : Listed st list l) (place : it.At list l n)
    (behind : l.length ≤ n) : ∃ it', tlinkedListNext st it = .ok (it', none) := by
  obtain ⟨root, here⟩ := place
  rw [tlinkedListNext]
  have stop : nextOf l n = none := by
    rw [nextOf, getElem?_eq_none behind]
    rfl
  cases first : it.first with
  | start =>
    rw [first] at here
    obtain ⟨rfl, next⟩ := here
    obtain rfl := eq_nil_of_length_eq_zero (Nat.le_zero.mp behind)
    have empty : st.records list = some .empty := h.root
    rw [next]
    refine ⟨{ next := some list, first := .root, listRoot := it.listRoot }, ?_⟩
    simp only [readNext, Store.tread, empty]
    rfl
  | root =>
    rw [first] at here
    rcases here with ⟨rfl, _, next⟩ | ⟨rfl, ⟨next, _⟩ | ⟨gone, _, _, some⟩⟩
    · rw [next, stop]
      exact ⟨_, rfl⟩
    · rw [next]
      exact ⟨_, rfl⟩
    · exact absurd (eq_nil_of_length_eq_zero (Nat.le_zero.mp behind)) some
  | later =>
    rw [first] at here
    rw [here.2, stop]
    exact ⟨_, rfl⟩

end Iterate

end Stasis.LinkedList
