import Stasis.Operations.LinkedList.Moving

/-!
A linked list is an association list.

Insertions, removals and searches on a list that `TlinkedListCreate` made do what they do on a
list of pairs, whatever the calls are. Deleting the list frees its records only while it has at
most one entry.
-/
namespace Stasis.LinkedList
open Chains Fallible Function List

inductive Call (K V : Type) where
  | insert (key : K) (value : V)
  | remove (key : K)
  | find (key : K)
deriving DecidableEq, Repr

inductive Outcome (V : Type) where
  | inserted
  | removed (ret : Bool)
  | found (value : Option V)
deriving DecidableEq, Repr

section Calls
variable {K V : Type} [DecidableEq K]

def Call.run (pick : Picks) (fuel : Nat) (list : Rid) (st : Store K V) :
    Call K V → Except Stop (Store K V × Outcome V)
  | .insert key value => do
      let st ← insertHelper pick st list key value
      .ok (st, .inserted)
  | .remove key => do
      let (st, ret) ← tlinkedListRemove fuel st list key
      .ok (st, .removed ret)
  | .find key => do
      let value ← tlinkedListFind fuel st list key
      .ok (st, .found value)

def runCalls (pick : Picks) (fuel : Nat) (list : Rid) (st : Store K V) :
    List (Call K V) → Except Stop (Store K V × List (Outcome V))
  | [] => .ok (st, [])
  | call :: calls => do
      let (st, outcome) ← call.run pick fuel list st
      let (st, outcomes) ← runCalls pick fuel list st calls
      .ok (st, outcome :: outcomes)

/-- The call on a list of pairs. -/
def Call.apply (l : List (K × V)) : Call K V → List (K × V) × Outcome V
  | .insert key value => (insertItem l (key, value), .inserted)
  | .remove key => (l.eraseP fun e => e.1 = key, .removed (lookupItem l key).isSome)
  | .find key => (l, .found (lookupItem l key))

def applyCalls (l : List (K × V)) : List (Call K V) → List (K × V) × List (Outcome V)
  | [] => (l, [])
  | call :: calls =>
    let rest := applyCalls (call.apply l).1 calls
    (rest.1, (call.apply l).2 :: rest.2)

variable {pick : Picks} {fuel : Nat} {st : Store K V} {list : Rid} {l : Nodes K V}

theorem Listed.remove (h : Listed st list l) (enough : l.length ≤ fuel) (key : K) :
    match lookupItem (items l) key with
    | none => tlinkedListRemove fuel st list key = .ok (st, false) ∧
        (items l).eraseP (fun e => e.1 = key) = items l
    | some _ => ∃ st' l', tlinkedListRemove fuel st list key = .ok (st', true) ∧
        items l' = (items l).eraseP (fun e => e.1 = key) ∧ Changed st st' list l l' ∧
        Freed st st' l := by
  cases found : lookupItem (items l) key with
  | none =>
    refine ⟨tlinkedListRemove_miss h found enough, eraseP_of_forall_not fun e mem => ?_⟩
    simpa using lookupItem_eq_none.mp found e mem
  | some value =>
    obtain ⟨n, q, value', hit, miss⟩ := exists_hit (found.trans_ne nofun)
    obtain ⟨st', removed, changed, freed⟩ := tlinkedListRemove_hit h hit miss enough
    exact ⟨st', unlinkAt l n, removed, by rw [items_unlinkAt, eraseIdx_hit hit miss], changed, freed⟩

theorem Listed.call (fresh : ∀ t ids, pick t ids ∉ ids) (h : Listed st list l)
    (enough : l.length ≤ fuel) (call : Call K V) :
    ∃ st' l', call.run pick fuel list st = .ok (st', (call.apply (items l)).2) ∧
      items l' = (call.apply (items l)).1 ∧ Listed st' list l' := by
  cases call with
  | insert key value =>
    obtain ⟨st', l', inserted, eq, changed⟩ := insertHelper_spec fresh h key value
    exact ⟨st', l', bind_ok inserted rfl, eq, changed.bucket⟩
  | remove key =>
    have removal := h.remove enough key
    cases found : lookupItem (items l) key with
    | none =>
      rw [found] at removal
      refine ⟨st, l, bind_ok removal.1 ?_, removal.2.symm, h⟩
      rw [Call.apply, found]
      rfl
    | some value =>
      rw [found] at removal
      obtain ⟨st', l', removed, eq, changed, _⟩ := removal
      refine ⟨st', l', bind_ok removed ?_, eq, changed.bucket⟩
      rw [Call.apply, found]
      rfl
  | find key => exact ⟨st, l, bind_ok (tlinkedListFind_spec h enough) rfl, rfl, h⟩

omit [DecidableEq K] in
theorem length_insertItem (l : List (K × V)) (e : K × V) :
    (insertItem l e).length = l.length + 1 :=
  (insertItem_perm l e).length_eq

theorem Call.length_apply (l : List (K × V)) (call : Call K V) :
    (call.apply l).1.length ≤ l.length + 1 := by
  cases call with
  | insert key value => exact (length_insertItem l _).le
  | remove key => exact Nat.le_succ_of_le eraseP_sublist.length_le
  | find key => exact Nat.le_succ _

theorem Listed.calls (fresh : ∀ t ids, pick t ids ∉ ids) (h : Listed st list l)
    {calls : List (Call K V)} (enough : l.length + calls.length ≤ fuel) :
    ∃ st' l', runCalls pick fuel list st calls = .ok (st', (applyCalls (items l) calls).2) ∧
      items l' = (applyCalls (items l) calls).1 ∧ Listed st' list l' ∧ l'.length ≤ fuel := by
  induction calls generalizing st l with
  | nil => exact ⟨st, l, rfl, rfl, h, enough⟩
  | cons call calls ih =>
    rw [length_cons] at enough
    have room : l.length ≤ fuel := by omega
    obtain ⟨st1, l1, ran, eq, h1⟩ := h.call fresh room call
    have longer := call.length_apply (items l)
    rw [← eq, items, items, length_map, length_map] at longer
    obtain ⟨st2, l2, rest, eq2, h2, few⟩ := ih h1 (by omega)
    rw [eq] at rest eq2
    exact ⟨st2, l2, bind_ok ran (bind_ok rest rfl), eq2, h2, few⟩

omit [DecidableEq K] in
theorem tlinkedListCreate_spec (pick : Picks) (st : Store K V) :
    ∃ st' id, tlinkedListCreate pick st = .ok (st', .record id) ∧
      Listed st' (.record id) ([] : Nodes K V) := by
  have there : ((st.talloc pick).1.records (st.talloc pick).2).isSome := by
    simp [Store.talloc, Store.put]
  refine ⟨_, pick st.clock st.used, bind_ok (tset_ok there .empty) rfl, ?_⟩
  refine ⟨update_self .., fun i r e at_i => ?_, fun i r e at_i => ?_, fun id eq => ?_⟩
  · cases at_i
  · cases at_i
  · cases eq
    exact mem_cons_self

/-- The chain of a list that was created, after any calls. -/
theorem linked_list_is_association_list (fresh : ∀ t ids, pick t ids ∉ ids) (st : Store K V)
    (calls : List (Call K V)) (enough : calls.length ≤ fuel) :
    ∃ st1 list st2 l, tlinkedListCreate pick st = .ok (st1, list) ∧
      runCalls pick fuel list st1 calls = .ok (st2, (applyCalls [] calls).2) ∧
      Listed st2 list l ∧ items l = (applyCalls [] calls).1 ∧ (addresses l).Nodup ∧
      (∀ r ∈ addresses l, (st2.records r).isSome ∧ ∃ id ∈ st2.used, r = .record id) ∧
      ∀ key st3 ret, tlinkedListRemove fuel st2 list key = .ok (st3, ret) →
        if ret then Freed st2 st3 l else st3 = st2 := by
  obtain ⟨st1, id, created, empty⟩ := tlinkedListCreate_spec pick st
  have room : ([] : Nodes K V).length + calls.length ≤ fuel := by simpa
  obtain ⟨st2, l, ran, eq, h, few⟩ := empty.calls fresh room
  refine ⟨st1, .record id, st2, l, created, ran, h, eq, h.linked.nodup, fun r mem => ⟨?_, ?_⟩,
    fun key st3 ret removed => ?_⟩
  · obtain ⟨i, e, at_i⟩ := mem_addresses_iff.mp mem
    exact Option.isSome_of_eq_some (h.read at_i)
  · rcases h.held_cases (.inr mem) with rfl | used
    · exact ⟨id, h.own id rfl, rfl⟩
    · exact used
  · have removal := h.remove few key
    cases found : lookupItem (items l) key with
    | none =>
      rw [found] at removal
      cases removal.1.symm.trans removed
      rfl
    | some value =>
      rw [found] at removal
      obtain ⟨st', l', removed', _, _, freed⟩ := removal
      cases removed'.symm.trans removed
      exact freed

/-- The records of a list are freed, each of them once, and no others. -/
structure Deleted (st st' : Store K V) (list : Rid) (l : Nodes K V) : Prop where
  once : ∃ ids, ids.map Rid.record = list :: (addresses l).tail ∧ st.used.Perm (ids ++ st'.used)
  gone : ∀ r, Held list l r → st'.records r = none
  others : ∀ r, ¬ Held list l r → st'.records r = st.records r

omit [DecidableEq K] in
theorem Listed.deleted {id : Nat} (h : Listed st (.record id) l) (short : l.length ≤ 1) :
    Deleted st { st.put (.record id) none with used := st.used.erase id } (.record id) l := by
  have alone : ∀ r, Held (.record id) l r → r = .record id := by
    rintro r (eq | mem)
    · exact eq
    · match l with
      | [p] => exact (mem_singleton.mp mem).trans h.root
  have tail : (addresses l).tail = [] := by
    match l with
    | [] | [p] => rfl
  refine ⟨⟨[id], by rw [tail]; rfl, perm_cons_erase (h.own id rfl)⟩, fun r held => ?_,
    fun r other => update_of_ne (fun eq => other (.inl eq)) ..⟩
  rw [alone r held]
  exact update_self ..

omit [DecidableEq K] in
/-- A record that passes the assertion leads to itself, so none is the last one. -/
theorem deleteLoop_ne_ok (nextEntry : Nat → Rid) (fuel : Nat) (st st' : Store K V) (q : Rid)
    (key : K) (value : V) :
    deleteLoop nextEntry fuel st (.entry (some q) key value) ≠ .ok st' := by
  induction fuel generalizing st q key value with
  | zero => nofun
  | succ fuel ih =>
    rw [deleteLoop]
    · intro deleted
      obtain ⟨entry, _, rest⟩ := bind_eq_ok.mp deleted
      cases entry with
      | empty => cases rest
      | entry next key value =>
        dsimp only at rest
        split at rest
        · next same =>
          subst same
          obtain ⟨mid, _, looped⟩ := bind_eq_ok.mp rest
          exact ih mid _ key value looped
        · cases rest
    · intro key value eq
      cases eq

/-- After any calls, a list is deleted as it should be exactly if it has at most one entry. With
more, the call does not return, whatever the variable of its loop holds. -/
theorem delete_frees_list_iff (fresh : ∀ t ids, pick t ids ∉ ids) (st : Store K V)
    (calls : List (Call K V)) (enough : calls.length ≤ fuel) (nextEntry : Nat → Rid) :
    ∃ st1 id st2 l, tlinkedListCreate pick st = .ok (st1, .record id) ∧
      runCalls pick fuel (.record id) st1 calls = .ok (st2, (applyCalls [] calls).2) ∧
      Listed st2 (.record id) l ∧ items l = (applyCalls [] calls).1 ∧
      ((∃ rounds st3, tlinkedListDelete nextEntry rounds st2 (.record id) = .ok st3 ∧
        Deleted st2 st3 (.record id) l) ↔ l.length ≤ 1) ∧
      (2 ≤ l.length → ∀ rounds st3,
        tlinkedListDelete nextEntry rounds st2 (.record id) ≠ .ok st3) := by
  obtain ⟨st1, id, created, empty⟩ := tlinkedListCreate_spec pick st
  have room : ([] : Nodes K V).length + calls.length ≤ fuel := by simpa
  obtain ⟨st2, l, ran, eq, h, _⟩ := empty.calls fresh room
  have long : 2 ≤ l.length → ∀ rounds st3,
      tlinkedListDelete nextEntry rounds st2 (.record id) ≠ .ok st3 := by
    intro two rounds st3 deleted
    match l with
    | (r, e) :: (q, f) :: l =>
      obtain rfl : r = .record id := h.root
      obtain ⟨entry, read, rest⟩ := bind_eq_ok.mp deleted
      cases (h.tread (i := 0) rfl).symm.trans read
      obtain ⟨mid, _, looped⟩ := bind_eq_ok.mp rest
      exact deleteLoop_ne_ok nextEntry rounds mid st3 q e.1 e.2 looped
  refine ⟨st1, id, st2, l, created, ran, h, eq, ⟨fun deleted => ?_, fun short => ?_⟩, long⟩
  · obtain ⟨rounds, st3, deleted, _⟩ := deleted
    by_contra more
    exact long (by omega) rounds st3 deleted
  · refine ⟨1, _, ?_, h.deleted short⟩
    match l with
    | [] =>
      have root : st2.records (.record id) = some .empty := h.root
      refine bind_ok (by rw [Store.tread, root]) ?_
      exact bind_ok (tdealloc_ok root) rfl
    | [(r, e)] =>
      obtain rfl : r = .record id := h.root
      refine bind_ok (h.tread (i := 0) rfl) ?_
      exact bind_ok (tdealloc_ok (h.read (i := 0) rfl)) rfl

end Calls

def reinserted : List (Call Nat Nat) :=
  [.insert 1 10, .insert 2 20, .find 2, .insert 1 11, .remove 1, .find 1, .remove 2]

theorem linked_list_is_association_list_reinserted :
    (applyCalls [] reinserted).2 = [.inserted, .inserted, .found (some 20), .inserted,
      .removed true, .found (some 11), .removed true] ∧
    ∃ st1 list st2 l, tlinkedListCreate highest threeEntries = .ok (st1, list) ∧
      runCalls highest 7 list st1 reinserted = .ok (st2, (applyCalls [] reinserted).2) ∧
      Listed st2 list l ∧ items l = [(1, 11)] := by
  refine ⟨by decide, ?_⟩
  obtain ⟨st1, list, st2, l, created, ran, h, eq, _⟩ := linked_list_is_association_list
    highest_fresh threeEntries reinserted (show _ ≤ 7 by decide)
  exact ⟨st1, list, st2, l, created, ran, h, eq⟩

theorem delete_frees_list_iff_reinserted :
    ∃ st1 id st2 l rounds st3, tlinkedListCreate highest threeEntries = .ok (st1, .record id) ∧
      runCalls highest 7 (.record id) st1 reinserted =
        .ok (st2, (applyCalls [] reinserted).2) ∧
      tlinkedListDelete (fun _ => .record 0) rounds st2 (.record id) = .ok st3 ∧
      Deleted st2 st3 (.record id) l := by
  obtain ⟨st1, id, st2, l, created, ran, _, eq, exact', _⟩ := delete_frees_list_iff
    highest_fresh threeEntries reinserted (show _ ≤ 7 by decide) fun _ => .record 0
  have short : l.length ≤ 1 := by
    have count := congrArg List.length eq
    rw [items, length_map] at count
    exact count.trans_le (by decide)
  obtain ⟨rounds, st3, deleted, spec⟩ := exact'.mpr short
  exact ⟨st1, id, st2, l, rounds, st3, created, ran, deleted, spec⟩

/-- The list of three entries is not freed. -/
theorem three_entries_not_deleted :
    twoLists = .ok (threeEntries, .record 1, .record 4) ∧
      tlinkedListDelete (fun _ => .record 2) 4 threeEntries (.record 1) = .error .fails :=
  ⟨twoLists_eq, rfl⟩

end Stasis.LinkedList
