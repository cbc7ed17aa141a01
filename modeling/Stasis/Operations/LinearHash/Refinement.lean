import Stasis.Operations.LinearHash.Iteration

/-!
The operations of the linear hash table are those of a finite map.

The header of the table depends on the history: an insertion may split a bucket. What the
operations return, and what the table holds, do not.
-/
namespace Stasis.LinearHash
open LinkedList Chains Fallible List

variable {K V : Type} [DecidableEq K]

section Keys
variable {m : Map K V}

theorem erase_absent (absent : m.lookup key = none) : m.erase key = m := by
  refine Finmap.ext_lookup fun k => ?_
  by_cases eq : k = key
  · rw [eq, Finmap.lookup_erase, absent]
  · exact Finmap.lookup_erase_ne eq

theorem insert_erase : (m.erase key).insert key value = m.insert key value := by
  refine Finmap.ext_lookup fun k => ?_
  by_cases eq : k = key
  · rw [eq, Finmap.lookup_insert, Finmap.lookup_insert]
  · rw [Finmap.lookup_insert_of_ne _ eq, Finmap.lookup_insert_of_ne _ eq, Finmap.lookup_erase_ne eq]

theorem keys_insert : (m.insert key value).keys = insert key m.keys := by
  refine Finset.ext fun k => ?_
  rw [Finmap.mem_keys, Finset.mem_insert, Finmap.mem_keys, Finmap.mem_insert]

theorem card_insert_absent (absent : m.lookup key = none) :
    (m.insert key value).keys.card = m.keys.card + 1 := by
  rw [keys_insert, Finset.card_insert_of_notMem]
  rw [Finmap.mem_keys]
  exact Finmap.lookup_eq_none.mp absent

theorem card_erase_present (there : m.lookup key ≠ none) :
    (m.erase key).keys.card + 1 = m.keys.card := by
  have mem : key ∈ m.keys :=
    Finmap.mem_keys.mpr (not_not.mp fun out => there (Finmap.lookup_eq_none.mpr out))
  rw [Finmap.keys_erase, Finset.card_erase_add_one mem]

end Keys

/-- The header after an insertion has looked at the fill of the table. -/
def Header.grow (lhh : Header) (env : Env K) : Header :=
  if lhh.numEntries > env.fill lhh.numBuckets then lhh.split else lhh

omit [DecidableEq K] in
theorem grow_numEntries (lhh : Header) (env : Env K) :
    (lhh.grow env).numEntries = lhh.numEntries := by
  rw [Header.grow, Header.split]
  split
  · split <;> rfl
  · rfl

/-- A finite map, and the header of a table that has had the same history. -/
structure Spec (K V : Type) where
  lhh : Header
  map : Map K V

namespace Spec

def create : Spec K V := ⟨⟨0, hashInitBits, 0⟩, ∅⟩

def remove (s : Spec K V) (key : K) : Spec K V :=
  ⟨{ s.lhh with numEntries := (s.map.erase key).keys.card }, s.map.erase key⟩

def put (env : Env K) (s : Spec K V) (key : K) (value : V) : Spec K V :=
  ⟨{ Header.grow { s.lhh with numEntries := s.lhh.numEntries + 1 } env with
    numEntries := (s.map.insert key value).keys.card }, s.map.insert key value⟩

theorem card_remove (s : Spec K V) (key : K) : (s.remove key).map.keys.card ≤ s.map.keys.card := by
  rw [remove, Finmap.keys_erase]
  exact Finset.card_erase_le

theorem card_put (env : Env K) (s : Spec K V) (key : K) (value : V) :
    (s.put env key value).map.keys.card ≤ s.map.keys.card + 1 := by
  rw [put, keys_insert]
  exact Finset.card_insert_le _ _

end Spec

/-- The table has the header, holds the map, and counts its keys. -/
structure Refines (env : Env K) (t : Table K V) (s : Spec K V) : Prop where
  holds : ∃ lists, Holds env t.st t.length t.lhh lists s.map
  header : t.lhh = s.lhh
  count : t.lhh.numEntries = s.map.keys.card

variable {env : Env K} {t : Table K V} {s : Spec K V}

theorem insertInner_run (counted : lhh = { t.lhh with numEntries := t.lhh.numEntries + 1 })
    (split : (if lhh.numEntries > env.fill lhh.numBuckets then thashSplitBucket env t lhh else .ok (t, lhh)) =
      .ok (t1, lhh1))
    (removed : tlinkedListRemove env.fuel t1.st (.bucket (env.bucketOf lhh1 key)) key = .ok (st1,
      ret))
    (inserted : insertHelper env.pick st1 (.bucket (env.bucketOf lhh1 key)) key value = .ok st2) :
    thashInsertInner env t key value = .ok (⟨if ret then
      { lhh1 with numEntries := lhh1.numEntries - 1 } else lhh1, t1.length, st2⟩, ret) := by
  subst counted
  by_cases full : t.lhh.numEntries + 1 > env.fill t.lhh.numBuckets
  · refine (if_pos full).trans (bind_ok ((if_pos full).symm.trans split) ?_)
    exact bind_ok removed (bind_ok inserted rfl)
  · refine (if_neg full).trans (bind_ok ((if_neg full).symm.trans split) ?_)
    exact bind_ok removed (bind_ok inserted rfl)

namespace Refines
section
variable (h : Refines env t s) (enough : s.map.keys.card ≤ env.fuel)
include h enough

theorem lookup (key : K) : thashLookup env t key = .ok (s.map.lookup key) := by
  obtain ⟨lists, holds⟩ := h.holds
  exact holds.find enough key

theorem removeInner (there : s.map.lookup key ≠ none) :
    ∃ t', thashRemoveInner env t key = .ok (t', true) ∧ Refines env t' (s.remove key) := by
  obtain ⟨lists, holds⟩ := h.holds
  obtain ⟨st', lists', removed, after⟩ := holds.remove_present enough there
  have count : t.lhh.numEntries - 1 = (s.map.erase key).keys.card := by
    have counted := card_erase_present there
    have count := h.count
    omega
  refine ⟨{ t with lhh := { t.lhh with numEntries := t.lhh.numEntries - 1 }, st := st' },
    bind_ok removed rfl, ⟨lists', after.recount _⟩, ?_, count⟩
  rw [count, h.header]
  rfl

theorem remove (key : K) :
    ∃ t', thashRemove env t key = .ok (t', (s.map.lookup key).isSome,
        ((s.map.lookup key).map (Logged.remove key)).toList) ∧ Refines env t' (s.remove key) := by
  have found := h.lookup enough key
  cases value : s.map.lookup key with
  | none =>
    rw [value] at found
    have same : s.remove key = s := by
      rw [Spec.remove, erase_absent value, ← h.count, h.header]
    exact ⟨t, bind_ok found rfl, same.symm ▸ h⟩
  | some v =>
    rw [value] at found
    obtain ⟨t', inner, after⟩ := h.removeInner enough (by rw [value]; exact nofun)
    exact ⟨t', bind_ok found (bind_ok inner rfl), after⟩

end

section
variable (h : Refines env t s) (enough : s.map.keys.card < env.fuel)
include h enough

theorem grown (counted : lhh = { t.lhh with numEntries := t.lhh.numEntries + 1 })
    (small : (lhh.grow env).numBuckets < 2 ^ 30) :
    ∃ t' lists, (if lhh.numEntries > env.fill lhh.numBuckets then thashSplitBucket env t lhh
        else .ok (t, lhh)) = .ok (t', lhh.grow env) ∧
      Holds env t'.st t'.length (lhh.grow env) lists s.map := by
  obtain ⟨lists, holds⟩ := h.holds
  have holds : Holds env t.st t.length lhh lists s.map := counted ▸ holds.recount _
  rw [Header.grow] at small ⊢
  split
  · next full =>
    rw [if_pos full] at small
    obtain ⟨t', lists', split, _, after⟩ := thashSplitBucket_spec holds small enough
    exact ⟨t', lists', split, after⟩
  · exact ⟨t, lists, rfl, holds⟩

theorem insertInner (key : K) (value : V) (small : (s.put env key value).lhh.numBuckets < 2 ^ 30) :
    ∃ t', thashInsertInner env t key value = .ok (t', (s.map.lookup key).isSome) ∧
      Refines env t' (s.put env key value) := by
  generalize counted : { t.lhh with numEntries := t.lhh.numEntries + 1 } = lhh
  have header : (s.put env key value).lhh =
      { lhh.grow env with numEntries := (s.map.insert key value).keys.card } := by
    rw [Spec.put, ← h.header, counted]
  rw [header] at small
  obtain ⟨t1, lists, split, holds⟩ := h.grown enough counted.symm small
  have total : (lhh.grow env).numEntries = s.map.keys.card + 1 := by
    rw [grow_numEntries, ← counted, h.count]
  cases found : s.map.lookup key with
  | none =>
    have removed := tlinkedListRemove_miss (holds.bucket key) ((holds.lookup key).trans found)
      (le_trans (holds.length_le _) (le_of_lt enough))
    obtain ⟨st', lists', inserted, after⟩ := holds.insert_absent found value
    have eq : (lhh.grow env).numEntries = (s.map.insert key value).keys.card := by
      rw [total, card_insert_absent found]
      rfl
    refine ⟨_, insertInner_run counted.symm split removed inserted, ⟨lists', after⟩, ?_, eq⟩
    rw [header, ← eq]
    rfl
  | some old =>
    have there : s.map.lookup key ≠ none := by
      rw [found]
      exact nofun
    obtain ⟨st1, lists1, removed, holds1⟩ := holds.remove_present (le_of_lt enough) there
    obtain ⟨st', lists', inserted, after⟩ := holds1.insert_absent (Finmap.lookup_erase ..) value
    rw [insert_erase] at after
    have eq : (lhh.grow env).numEntries - 1 = (s.map.insert key value).keys.card := by
      have counted := card_erase_present there
      rw [total, ← insert_erase, card_insert_absent (Finmap.lookup_erase ..)]
      omega
    refine ⟨_, insertInner_run counted.symm split removed inserted,
      ⟨lists', after.recount _⟩, ?_, eq⟩
    rw [header, ← eq]
    rfl

theorem insert (key : K) (value : V)
    (small : ((s.remove key).put env key value).lhh.numBuckets < 2 ^ 30) :
    ∃ t', thashInsert env t key value = .ok (t', (s.map.lookup key).isSome,
        ((s.map.lookup key).map (Logged.remove key)).toList ++ [.insert key]) ∧
      Refines env t' ((s.remove key).put env key value) := by
  obtain ⟨t1, removed, after⟩ := h.remove (le_of_lt enough) key
  obtain ⟨t', inserted, after'⟩ := after.insertInner
    (lt_of_le_of_lt (s.card_remove key) enough) key value small
  exact ⟨t', bind_ok removed (bind_ok inserted rfl), after'⟩

end

end Refines

theorem refines_create (env : Env K) : Refines env (thashCreate : Table K V) .create := by
  have none : Owns (⟨fun _ => none, [], 0⟩ : Store K V) 0 fun _ => [] :=
    ⟨nofun, fun _ _ => rfl, nofun⟩
  have shape : Header.Shape ⟨0, hashInitBits, 0⟩ 16 := by
    constructor <;> decide
  refine ⟨⟨fun _ => [], Owns.extend (t := ⟨⟨0, hashInitBits, 0⟩, 0, _⟩) none 16, shape, nofun,
    fun _ => nodup_nil, fun key value => ?_⟩, rfl, rfl⟩
  exact iff_of_false nofun fun ⟨_, mem⟩ => not_mem_nil mem

inductive Op (K V : Type) where
  | insert (key : K) (value : V)
  | remove (key : K)
  | lookup (key : K)

inductive Ret (V : Type) where
  | present (ret : Bool)
  | found (value : Option V)
deriving DecidableEq, Repr

def Op.run (env : Env K) (t : Table K V) : Op K V → Except Stop (Table K V × Ret V)
  | .insert key value => do
      let (t, ret, _) ← thashInsert env t key value
      .ok (t, .present ret)
  | .remove key => do
      let (t, ret, _) ← thashRemove env t key
      .ok (t, .present ret)
  | .lookup key => do
      let value ← thashLookup env t key
      .ok (t, .found value)

def runOps (env : Env K) : Table K V → List (Op K V) → Except Stop (Table K V × List (Ret V))
  | t, [] => .ok (t, [])
  | t, op :: ops => do
      let (t, ret) ← op.run env t
      let (t, rets) ← runOps env t ops
      .ok (t, ret :: rets)

/-- What an operation does to a finite map. -/
def Op.apply (m : Map K V) : Op K V → Map K V
  | .insert key value => m.insert key value
  | .remove key => m.erase key
  | .lookup _ => m

/-- What it returns. -/
def Op.ret (m : Map K V) : Op K V → Ret V
  | .insert key _ => .present (m.lookup key).isSome
  | .remove key => .present (m.lookup key).isSome
  | .lookup key => .found (m.lookup key)

def rets (m : Map K V) : List (Op K V) → List (Ret V)
  | [] => []
  | op :: ops => op.ret m :: rets (op.apply m) ops

def Spec.step (env : Env K) (s : Spec K V) : Op K V → Spec K V
  | .insert key value => (s.remove key).put env key value
  | .remove key => s.remove key
  | .lookup _ => s

def Spec.run (env : Env K) (s : Spec K V) (ops : List (Op K V)) : Spec K V :=
  ops.foldl (Spec.step env) s

theorem Spec.step_map (env : Env K) (s : Spec K V) (op : Op K V) :
    (s.step env op).map = op.apply s.map := by
  cases op with
  | insert key value => exact insert_erase
  | remove key => rfl
  | lookup key => rfl

theorem Spec.card_step (env : Env K) (s : Spec K V) (op : Op K V) :
    (s.step env op).map.keys.card ≤ s.map.keys.card + 1 := by
  cases op with
  | insert key value =>
    exact le_trans ((s.remove key).card_put env key value)
      (Nat.succ_le_succ (s.card_remove key))
  | remove key => exact Nat.le_succ_of_le (s.card_remove key)
  | lookup key => exact Nat.le_succ _

theorem Spec.card_run (env : Env K) (s : Spec K V) (ops : List (Op K V)) :
    (s.run env ops).map.keys.card ≤ s.map.keys.card + ops.length := by
  induction ops generalizing s with
  | nil => exact le_rfl
  | cons op ops ih =>
    have first := s.card_step env op
    have rest := ih (s.step env op)
    rw [length_cons]
    exact le_trans rest (by omega)

theorem Op.run_spec (h : Refines env t s) (enough : s.map.keys.card < env.fuel) (op : Op K V)
    (small : (s.step env op).lhh.numBuckets < 2 ^ 30) :
    ∃ t', op.run env t = .ok (t', op.ret s.map) ∧ Refines env t' (s.step env op) := by
  cases op with
  | insert key value =>
    obtain ⟨t', ran, after⟩ := h.insert enough key value small
    exact ⟨t', bind_ok ran rfl, after⟩
  | remove key =>
    obtain ⟨t', ran, after⟩ := h.remove (le_of_lt enough) key
    exact ⟨t', bind_ok ran rfl, after⟩
  | lookup key =>
    exact ⟨t, bind_ok (h.lookup (le_of_lt enough) key) rfl, h⟩

theorem runOps_spec (h : Refines env t s) (enough : s.map.keys.card + ops.length ≤ env.fuel)
    (small : ∀ l, l <+: ops → (s.run env l).lhh.numBuckets < 2 ^ 30) :
    ∃ t', runOps env t ops = .ok (t', rets s.map ops) ∧ Refines env t' (s.run env ops) ∧
      (s.run env ops).map = ops.foldl Op.apply s.map := by
  induction ops generalizing t s with
  | nil => exact ⟨t, rfl, h, rfl⟩
  | cons op ops ih =>
    rw [length_cons] at enough
    have first := small [op] (List.prefix_append [op] ops)
    obtain ⟨t1, ran, after⟩ := op.run_spec h (by omega) first
    have counted := s.card_step env op
    obtain ⟨t', rest, final, maps⟩ := ih after (by omega) fun l le =>
      small (op :: l) (List.cons_prefix_cons.mpr ⟨rfl, le⟩)
    rw [s.step_map env op] at rest maps
    exact ⟨t', bind_ok ran (bind_ok rest rfl), final, maps⟩

/-- The table is the map: the buckets are linked lists, a key of the map has one entry, in the
bucket that the hash function names, with its value, and other keys have none. -/
structure IsMap (env : Env K) (t : Table K V) (m : Map K V) : Prop where
  stored : ∃ lists : Nat → Nodes K V, (∀ i < t.length, Bucket t.st i (lists i)) ∧
    ∀ i < t.length, ∀ key, (items (lists i)).filter (fun e => e.1 = key) =
      if i = env.bucketOf t.lhh key then (m.lookup key).toList.map (Prod.mk key) else []
  bucket_lt : ∀ key, env.bucketOf t.lhh key < t.lhh.nextSplit + 2 ^ (t.lhh.bits - 1)
  within : t.lhh.nextSplit + 2 ^ (t.lhh.bits - 1) ≤ t.length
  count : t.lhh.numEntries = m.keys.card
  pass : ∀ fuel, m.keys.card < fuel → ∃ l, thashPass t fuel (thashIterator t) = .ok l ∧
    (l.map Prod.fst).Nodup ∧ ∀ key value, (key, value) ∈ l ↔ m.lookup key = some value

theorem filter_key {l : List (K × V)} (nodup : (l.map Prod.fst).Nodup) (key : K) :
    l.filter (fun e => e.1 = key) = (lookupItem l key).toList.map (Prod.mk key) := by
  induction l with
  | nil => rfl
  | cons e l ih =>
    obtain ⟨out, rest⟩ := nodup_cons.mp nodup
    rw [lookupItem, find?_cons, filter_cons]
    by_cases same : e.1 = key
    · subst same
      rw [if_pos (decide_eq_true rfl), decide_eq_true rfl, filter_eq_nil_iff.mpr]
      · rfl
      · intro e' mem same
        rw [decide_eq_true_eq] at same
        exact out (same ▸ mem_map_of_mem mem)
    · rw [if_neg (by rw [decide_eq_true_eq]; exact same), decide_eq_false same]
      exact ih rest

theorem Refines.isMap (h : Refines env t s) : IsMap env t s.map := by
  obtain ⟨lists, holds⟩ := h.holds
  refine ⟨⟨lists, holds.owns.bucket, fun i _ key => ?_⟩, fun key => holds.shape.bucketOf_lt,
    holds.shape.within, h.count, fun fuel enough => holds.pass enough⟩
  split
  · next here =>
    rw [filter_key (holds.nodup i), here, holds.lookup]
  · next ne =>
    refine filter_eq_nil_iff.mpr fun e mem same => ne ?_
    rw [decide_eq_true_eq] at same
    rw [← same, holds.placed i e mem]

/-- Whatever the hash function is, and whichever insertions split a bucket, the operations on a
new table return what those of a finite map return, and the table is that map afterwards. -/
theorem linear_hash_is_finite_map (env : Env K) (ops : List (Op K V))
    (enough : ops.length ≤ env.fuel)
    (small : ∀ l, l <+: ops → (Spec.create.run env l).lhh.numBuckets < 2 ^ 30) :
    ∃ t, runOps env thashCreate ops = .ok (t, rets ∅ ops) ∧ IsMap env t (ops.foldl Op.apply ∅) ∧
      t.lhh = (Spec.create.run env ops).lhh := by
  have fits : (∅ : Map K V).keys.card + ops.length ≤ env.fuel := by
    rw [Finmap.keys_empty, Finset.card_empty]
    omega
  obtain ⟨t, ran, after, maps⟩ := runOps_spec (refines_create env) fits small
  exact ⟨t, ran, maps ▸ after.isMap, after.header⟩

/-- Records are taken in order, and a key is its own hash. -/
def orderedEnv (fuel : Nat) : Env Nat where
  pick := highest
  fresh := highest_fresh
  hash key := UInt32.ofNat key
  fill n := n * 7 / 10
  fuel := fuel

/-- The sixth key splits a bucket. -/
def sixKeys : List (Op Nat Nat) :=
  [.insert 0 10, .insert 8 18, .insert 16 26, .insert 1 11, .insert 24 34, .insert 8 9, .remove 16,
    .insert 2 12, .insert 3 13, .lookup 8]

theorem linear_hash_is_finite_map_six_keys :
    ∃ t, runOps (orderedEnv 10) thashCreate sixKeys = .ok (t, [.present false, .present false,
        .present false, .present false, .present false, .present true, .present true,
        .present false, .present false, .found (some 9)]) ∧
      IsMap (orderedEnv 10) t (sixKeys.foldl Op.apply ∅) ∧
      t.lhh = ⟨1, 4, 6⟩ := by
  have small : ∀ l ∈ sixKeys.inits,
      (Spec.create.run (orderedEnv 10) l).lhh.numBuckets < 2 ^ 30 := by decide +kernel
  have returned : rets ∅ sixKeys = [.present false, .present false,
      .present false, .present false, .present false, .present true, .present true,
      .present false, .present false, .found (some 9)] := by decide +kernel
  have header : (Spec.create.run (orderedEnv 10) sixKeys).lhh = ⟨1, 4, 6⟩ := by decide +kernel
  obtain ⟨t, ran, isMap, same⟩ := linear_hash_is_finite_map (orderedEnv 10) sixKeys (by decide)
    fun l le => small l ((mem_inits l sixKeys).mpr le)
  exact ⟨t, returned ▸ ran, isMap, same.trans header⟩

end Stasis.LinearHash
