import Mathlib.Data.Finmap
import Stasis.Operations.LinearHash.Split

/-!
The linear hash table is a finite map.

The buckets hold the entries of a map, each in the bucket that the hash function names. Every
operation keeps this, whatever the split of a bucket moves, and answers as the map does.
-/
namespace Stasis.LinearHash
open LinkedList Chains Fallible Function List

abbrev Map (K V : Type) := Finmap fun _ : K => V

variable {K V : Type}

/-- The part of the array list that is used, and how it grows. -/
structure Header.Shape (lhh : Header) (length : Nat) : Prop where
  pos : 0 < lhh.bits
  high : lhh.bits ≤ 30
  split : lhh.nextSplit < 2 ^ (lhh.bits - 1)
  within : lhh.nextSplit + 2 ^ (lhh.bits - 1) ≤ length
  aligned : length % 16 = 0

section Shape
variable {env : Env K} {lhh : Header} {length : Nat}

theorem twoToThe_eq (lt : x < 31) : twoToThe x = 2 ^ x := if_pos lt

theorem Header.Shape.numBuckets (h : lhh.Shape length) :
    lhh.numBuckets = lhh.nextSplit + 2 ^ (lhh.bits - 1) := by
  have high := h.high
  rw [Header.numBuckets, twoToThe_eq (by omega)]

theorem Header.Shape.double (h : lhh.Shape length) : 2 ^ lhh.bits = 2 * 2 ^ (lhh.bits - 1) := by
  obtain ⟨n, eq⟩ : ∃ n, lhh.bits = n + 1 := ⟨lhh.bits - 1, by have := h.pos; omega⟩
  rw [eq, Nat.add_sub_cancel, Nat.pow_succ, Nat.mul_comm]

theorem stasisLinearHash_eq {next : Nat} (high : bits ≤ 30) (double : 2 ^ bits = 2 * 2 ^ (bits - 1)) :
    stasisLinearHash unmixed bits next =
      LinearHashing.address unmixed.toNat (2 ^ (bits - 1)) next := by
  rw [stasisLinearHash, LinearHashing.address, twoToThe_eq (by omega), twoToThe_eq (by omega)]
  simp only [Nat.and_two_pow_sub_one_eq_mod]
  rw [double]

section
variable (h : lhh.Shape length)
include h

theorem Header.Shape.bucketOf : env.bucketOf lhh key =
    LinearHashing.address (env.hash key).toNat (2 ^ (lhh.bits - 1)) lhh.nextSplit :=
  stasisLinearHash_eq h.high h.double

theorem Header.Shape.bucketOf_lt : env.bucketOf lhh key < lhh.nextSplit + 2 ^ (lhh.bits - 1) := by
  rw [h.bucketOf]
  exact LinearHashing.address_lt (Nat.two_pow_pos _)

theorem Header.Shape.split_cases :
    lhh.nextSplit + 1 < 2 ^ (lhh.bits - 1) ∧ lhh.split = { lhh with nextSplit := lhh.nextSplit + 1 } ∨
      lhh.nextSplit + 1 = 2 ^ (lhh.bits - 1) ∧
        lhh.split = { lhh with nextSplit := 0, bits := lhh.bits + 1 } := by
  have high := h.high
  have lt := h.split
  rw [Header.split, twoToThe_eq (by omega)]
  split
  · exact .inl ⟨by omega, rfl⟩
  · exact .inr ⟨by omega, rfl⟩

theorem Header.Shape.numBuckets_split : lhh.split.numBuckets = lhh.numBuckets + 1 := by
  have high := h.high
  have double := h.double
  rw [h.numBuckets, Header.numBuckets]
  rcases h.split_cases with ⟨_, eq⟩ | ⟨last, eq⟩
  · rw [eq, twoToThe_eq (by show lhh.bits - 1 < 31; omega)]
    show lhh.nextSplit + 1 + 2 ^ (lhh.bits - 1) = _
    omega
  · rw [eq, twoToThe_eq (by show lhh.bits + 1 - 1 < 31; omega)]
    show 0 + 2 ^ lhh.bits = _
    omega

end

section
variable (h : lhh.Shape length) (small : lhh.split.numBuckets < 2 ^ 30)
include h small

theorem Header.Shape.split_high : lhh.split.bits ≤ 30 := by
  have high := h.high
  rw [h.numBuckets_split, h.numBuckets] at small
  rcases h.split_cases with ⟨_, eq⟩ | ⟨last, eq⟩
  · rw [eq]
    exact high
  · rw [eq]
    have double := h.double
    have lt : 2 ^ lhh.bits < 2 ^ 30 := by omega
    exact (Nat.pow_lt_pow_iff_right (by decide)).mp lt

theorem Header.Shape.next (within : lhh.nextSplit + 2 ^ (lhh.bits - 1) + 1 ≤ longer)
    (aligned : longer % 16 = 0) : lhh.split.Shape longer := by
  have bits := h.split_high small
  have double := h.double
  rcases h.split_cases with ⟨more, eq⟩ | ⟨last, eq⟩
  · rw [eq] at bits ⊢
    exact ⟨h.pos, bits, more, by show lhh.nextSplit + 1 + 2 ^ (lhh.bits - 1) ≤ longer; omega, aligned⟩
  · rw [eq] at bits ⊢
    refine ⟨Nat.succ_pos _, bits, Nat.two_pow_pos _, ?_, aligned⟩
    show 0 + 2 ^ lhh.bits ≤ longer
    omega

theorem Header.Shape.bucketOf_next :
    env.bucketOf lhh.split key =
      LinearHashing.address (env.hash key).toNat (2 ^ (lhh.bits - 1)) (lhh.nextSplit + 1) := by
  have bits := h.split_high small
  rcases h.split_cases with ⟨_, eq⟩ | ⟨last, eq⟩
  · rw [eq]
    exact stasisLinearHash_eq h.high h.double
  · rw [eq] at bits ⊢
    refine (stasisLinearHash_eq bits (Nat.pow_succ'.trans rfl)).trans ?_
    rw [Nat.add_sub_cancel, h.double, LinearHashing.address_wrap (Nat.two_pow_pos _), last]

end

end Shape

section Items
variable {l : List (K × V)}

theorem mem_eraseIdx_of_nodup (nodup : (l.map Prod.fst).Nodup) (at_n : l[n]? = some (key, value)) :
    e ∈ l.eraseIdx n ↔ e ∈ l ∧ e.1 ≠ key := by
  have keys : ∀ (i : Nat) (p : K × V), l[i]? = some p → (l.map Prod.fst)[i]? = some p.1 := by
    intro i p at_i
    rw [getElem?_map, at_i]
    rfl
  rw [mem_eraseIdx_iff_getElem?, mem_iff_getElem?]
  refine ⟨fun ⟨i, ne, at_i⟩ => ⟨⟨i, at_i⟩, fun same => ne ?_⟩, fun ⟨⟨i, at_i⟩, ne⟩ => ⟨i, ?_, at_i⟩⟩
  · have key_i := keys i e at_i
    rw [same] at key_i
    have inside := (List.getElem?_eq_some_iff.mp key_i).1
    exact (getElem?_inj inside nodup).mp (key_i.trans (keys n _ at_n).symm)
  · rintro rfl
    rw [at_n] at at_i
    exact ne (congrArg Prod.fst (Option.some.inj at_i)).symm

variable [DecidableEq K]

theorem lookupItem_eq_some (nodup : (l.map Prod.fst).Nodup) :
    lookupItem l key = some value ↔ (key, value) ∈ l := by
  induction l with
  | nil => exact iff_of_false nofun not_mem_nil
  | cons e l ih =>
    obtain ⟨out, rest⟩ := nodup_cons.mp nodup
    rw [lookupItem, find?_cons, mem_cons]
    by_cases same : e.1 = key
    · rw [decide_eq_true same]
      subst same
      refine ⟨fun eq => .inl (Prod.ext rfl (Option.some.inj eq).symm), fun mem => ?_⟩
      cases mem with
      | inl eq => exact congrArg some (congrArg Prod.snd eq).symm
      | inr later => exact absurd (mem_map_of_mem later) out
    · rw [decide_eq_false same]
      refine (ih rest).trans ⟨.inr, fun mem => mem.resolve_left fun eq => ?_⟩
      exact same (congrArg Prod.fst eq).symm

theorem length_le_card {m : Map K V} (nodup : (l.map Prod.fst).Nodup)
    (held : ∀ e ∈ l, m.lookup e.1 = some e.2) : l.length ≤ m.keys.card := by
  have few := Finset.card_le_card (s := (l.map Prod.fst).toFinset) (t := m.keys) ?_
  · rw [toFinset_card_of_nodup nodup, length_map] at few
    exact few
  · intro key mem
    obtain ⟨e, inside, rfl⟩ := mem_map.mp (mem_toFinset.mp mem)
    exact Finmap.mem_keys.mpr (Finmap.mem_of_lookup_eq_some (held e inside))

end Items

/-- The lists hold the entries of the map, each where its key belongs. -/
structure Holds (env : Env K) [DecidableEq K] (st : Store K V) (length : Nat) (lhh : Header)
    (lists : Nat → Nodes K V) (m : Map K V) : Prop where
  owns : Owns st length lists
  shape : lhh.Shape length
  placed : ∀ i e, e ∈ items (lists i) → env.bucketOf lhh e.1 = i
  nodup : ∀ i, ((items (lists i)).map Prod.fst).Nodup
  maps : ∀ key value, m.lookup key = some value ↔ ∃ i, (key, value) ∈ items (lists i)

namespace Holds
variable [DecidableEq K] {env : Env K} {st : Store K V} {length : Nat} {lists : Nat → Nodes K V}
  {m : Map K V} (h : Holds env st length lhh lists m)
include h

theorem bucket (key : K) : Bucket st (env.bucketOf lhh key) (lists (env.bucketOf lhh key)) :=
  h.owns.bucket _ (lt_of_lt_of_le h.shape.bucketOf_lt h.shape.within)

theorem mem_bucket :
    m.lookup key = some value ↔ (key, value) ∈ items (lists (env.bucketOf lhh key)) := by
  rw [h.maps]
  refine ⟨fun ⟨i, mem⟩ => ?_, fun mem => ⟨_, mem⟩⟩
  rw [h.placed i _ mem]
  exact mem

theorem lookup (key : K) :
    lookupItem (items (lists (env.bucketOf lhh key))) key = m.lookup key := by
  refine Option.ext fun value => ?_
  rw [lookupItem_eq_some (h.nodup _), h.mem_bucket]

theorem length_le (i : Nat) : (lists i).length ≤ m.keys.card := by
  have few := length_le_card (h.nodup i) fun e mem => (h.maps e.1 e.2).mpr ⟨i, mem⟩
  rw [items, length_map] at few
  exact few

theorem find (enough : m.keys.card ≤ env.fuel) (key : K) :
    tlinkedListFind env.fuel st (.bucket (env.bucketOf lhh key)) key = .ok (m.lookup key) := by
  rw [tlinkedListFind_spec (h.bucket key) (le_trans (h.length_le _) enough), h.lookup]

theorem replace
    (changed : Changed st st' (.bucket (env.bucketOf lhh key)) (lists (env.bucketOf lhh key)) l)
    (nodup : ((items l).map Prod.fst).Nodup)
    (placed : ∀ e ∈ items l, env.bucketOf lhh e.1 = env.bucketOf lhh key)
    (here : ∀ k, env.bucketOf lhh k = env.bucketOf lhh key →
      ∀ v, m'.lookup k = some v ↔ (k, v) ∈ items l)
    (others : ∀ k, env.bucketOf lhh k ≠ env.bucketOf lhh key → m'.lookup k = m.lookup k) :
    Holds env st' length lhh (update lists (env.bucketOf lhh key) l) m' := by
  have inside : env.bucketOf lhh key < length :=
    lt_of_lt_of_le h.shape.bucketOf_lt h.shape.within
  have placed' : ∀ i e, e ∈ items (update lists (env.bucketOf lhh key) l i) →
      env.bucketOf lhh e.1 = i :=
    (forall_update_iff lists fun i l => ∀ e ∈ items l, env.bucketOf lhh e.1 = i).mpr
      ⟨placed, fun i _ => h.placed i⟩
  refine ⟨h.owns.step inside changed, h.shape, placed', ?_, fun k v => ?_⟩
  · exact (forall_update_iff lists fun _ l => ((items l).map Prod.fst).Nodup).mpr
      ⟨nodup, fun i _ => h.nodup i⟩
  · by_cases same : env.bucketOf lhh k = env.bucketOf lhh key
    · rw [here k same]
      refine ⟨fun mem => ⟨_, by rw [update_self]; exact mem⟩, fun ⟨i, mem⟩ => ?_⟩
      have place := placed' i _ mem
      rw [← place, same, update_self] at mem
      exact mem
    · rw [others k same, h.mem_bucket]
      refine ⟨fun mem => ⟨env.bucketOf lhh k, by rw [update_of_ne same]; exact mem⟩,
        fun ⟨i, mem⟩ => ?_⟩
      have place := placed' i _ mem
      rw [← place, update_of_ne same] at mem
      exact mem

theorem unused (le : lhh.nextSplit + 2 ^ (lhh.bits - 1) ≤ i) : items (lists i) = [] := by
  refine eq_nil_iff_forall_not_mem.mpr fun e mem => ?_
  have lt : env.bucketOf lhh e.1 < _ := h.shape.bucketOf_lt
  rw [h.placed i e mem] at lt
  omega

theorem remove_present (enough : m.keys.card ≤ env.fuel) (there : m.lookup key ≠ none) :
    ∃ st' lists', tlinkedListRemove env.fuel st (.bucket (env.bucketOf lhh key)) key =
      .ok (st', true) ∧ Holds env st' length lhh lists' (m.erase key) := by
  have bucket := h.bucket key
  have nodup := h.nodup (env.bucketOf lhh key)
  rw [← h.lookup] at there
  obtain ⟨n, q, value, hit, miss⟩ := exists_hit there
  obtain ⟨st', removed, changed, _⟩ :=
    tlinkedListRemove_hit bucket hit miss (le_trans (h.length_le _) enough)
  have at_n : (items (lists (env.bucketOf lhh key)))[n]? = some (key, value) := by
    rw [items, getElem?_map, hit]
    rfl
  refine ⟨st', _, removed, h.replace changed ?_ (fun e mem => ?_) (fun k same v => ?_) fun k ne => ?_⟩
  · rw [items_unlinkAt]
    exact nodup.sublist ((eraseIdx_sublist ..).map _)
  · rw [items_unlinkAt] at mem
    exact h.placed _ e (mem_of_mem_eraseIdx mem)
  · rw [items_unlinkAt, mem_eraseIdx_of_nodup nodup at_n, ← same, ← h.mem_bucket]
    by_cases eq : k = key
    · subst eq
      simp only [Finmap.lookup_erase, reduceCtorEq, ne_eq, not_true_eq_false, and_false]
    · simp only [Finmap.lookup_erase_ne eq, ne_eq, eq, not_false_eq_true, and_true]
  · exact Finmap.lookup_erase_ne fun eq => ne (congrArg _ eq)

theorem insert_absent (absent : m.lookup key = none) (value : V) :
    ∃ st' lists', insertHelper env.pick st (.bucket (env.bucketOf lhh key)) key value = .ok st' ∧
      Holds env st' length lhh lists' (m.insert key value) := by
  obtain ⟨st', l', inserted, eq, changed⟩ := insertHelper_spec env.fresh (h.bucket key) key value
  have perm : (items l').Perm ((key, value) :: items (lists (env.bucketOf lhh key))) :=
    eq ▸ insertItem_perm _ _
  have out : key ∉ (items (lists (env.bucketOf lhh key))).map Prod.fst := by
    intro mem
    obtain ⟨e, held, rfl⟩ := mem_map.mp mem
    exact lookupItem_eq_none.mp ((h.lookup e.1).trans absent) e held rfl
  refine ⟨st', _, inserted, h.replace changed ?_ (fun e mem => ?_) (fun k same v => ?_) fun k ne => ?_⟩
  · exact ((perm.map _).nodup_iff).mpr (nodup_cons.mpr ⟨out, h.nodup _⟩)
  · rcases mem_cons.mp (perm.mem_iff.mp mem) with rfl | held
    · rfl
    · exact h.placed _ e held
  · rw [perm.mem_iff, mem_cons, ← same, ← h.mem_bucket]
    by_cases eq : k = key
    · subst eq
      rw [Finmap.lookup_insert, absent]
      simp only [Option.some.injEq, Prod.mk.injEq, true_and, reduceCtorEq, or_false, eq_comm]
    · rw [Finmap.lookup_insert_of_ne _ eq]
      simp only [Prod.mk.injEq, eq, false_and, false_or]
  · exact Finmap.lookup_insert_of_ne _ fun eq => ne (congrArg _ eq)

theorem recount (n : Int) : Holds env st length { lhh with numEntries := n } lists m :=
  ⟨h.owns, ⟨h.shape.pos, h.shape.high, h.shape.split, h.shape.within, h.shape.aligned⟩, h.placed,
    h.nodup, h.maps⟩

end Holds

section Split
variable [DecidableEq K] {m : Map K V}

theorem thashSplitBucket_spec (h : Holds env t.st t.length lhh lists m)
    (small : lhh.split.numBuckets < 2 ^ 30) (enough : m.keys.card < env.fuel) :
    ∃ t' lists', thashSplitBucket env t lhh = .ok (t', lhh.split) ∧ t'.lhh = t.lhh ∧
      Holds env t'.st t'.length lhh.split lists' m := by
  have high := h.shape.high
  have buckets : lhh.numBuckets = lhh.nextSplit + 2 ^ (lhh.bits - 1) := by
    rw [Header.numBuckets, twoToThe_eq (by omega)]
  have few := h.length_le lhh.nextSplit
  obtain ⟨t', lists', run, same, owns', within, aligned, others, stay, moved⟩ :=
    thashSplitBucket_divides env h.owns (buckets ▸ h.shape.within) h.shape.aligned
      (by rw [twoToThe_eq (by omega)]; exact Nat.two_pow_pos _) (h.nodup _) (by omega)
  rw [buckets] at within others moved
  rw [h.unused le_rfl, nil_append] at moved
  have mem_old : ∀ e, e ∈ items (lists' lhh.nextSplit) ↔
      e ∈ items (lists lhh.nextSplit) ∧ env.bucketOf lhh.split e.1 = lhh.nextSplit := by
    intro e
    rw [stay, mem_filter, decide_eq_true_eq]
  have mem_new : ∀ e, e ∈ items (lists' (lhh.nextSplit + 2 ^ (lhh.bits - 1))) ↔
      e ∈ items (lists lhh.nextSplit) ∧ env.bucketOf lhh.split e.1 ≠ lhh.nextSplit := by
    intro e
    rw [moved.mem_iff, mem_filter, decide_eq_true_eq]
  have placed : ∀ i e, e ∈ items (lists' i) → env.bucketOf lhh.split e.1 = i := by
    intro i e mem
    by_cases old : i = lhh.nextSplit
    · subst old
      exact ((mem_old e).mp mem).2
    by_cases new : i = lhh.nextSplit + 2 ^ (lhh.bits - 1)
    · subst new
      obtain ⟨held, away⟩ := (mem_new e).mp mem
      have here := h.placed _ e held
      rw [h.shape.bucketOf] at here
      rw [h.shape.bucketOf_next small] at away ⊢
      exact (LinearHashing.address_split (Nat.two_pow_pos _) here).resolve_left away
    · rw [others i old new] at mem
      have here := h.placed i e mem
      rw [h.shape.bucketOf] at here
      rw [h.shape.bucketOf_next small, LinearHashing.address_step (here.symm ▸ old), here]
  have kept : ∀ e, (∃ i, e ∈ items (lists i)) ↔ ∃ i, e ∈ items (lists' i) := by
    intro e
    refine ⟨fun ⟨i, mem⟩ => ?_, fun ⟨i, mem⟩ => ?_⟩
    · by_cases old : i = lhh.nextSplit
      · subst old
        by_cases stays : env.bucketOf lhh.split e.1 = lhh.nextSplit
        · exact ⟨_, (mem_old e).mpr ⟨mem, stays⟩⟩
        · exact ⟨_, (mem_new e).mpr ⟨mem, stays⟩⟩
      by_cases new : i = lhh.nextSplit + 2 ^ (lhh.bits - 1)
      · rw [new, h.unused le_rfl] at mem
        exact absurd mem not_mem_nil
      · exact ⟨i, (others i old new).symm ▸ mem⟩
    · by_cases old : i = lhh.nextSplit
      · subst old
        exact ⟨_, ((mem_old e).mp mem).1⟩
      by_cases new : i = lhh.nextSplit + 2 ^ (lhh.bits - 1)
      · subst new
        exact ⟨_, ((mem_new e).mp mem).1⟩
      · exact ⟨i, others i old new ▸ mem⟩
  refine ⟨t', lists', run, same,
    ⟨owns', h.shape.next small within aligned, placed, fun i => ?_, fun key value => ?_⟩⟩
  · by_cases old : i = lhh.nextSplit
    · subst old
      rw [stay]
      exact (h.nodup _).sublist (filter_sublist.map _)
    by_cases new : i = lhh.nextSplit + 2 ^ (lhh.bits - 1)
    · subst new
      refine ((moved.map _).nodup_iff).mpr ?_
      exact (h.nodup _).sublist (filter_sublist.map _)
    · rw [others i old new]
      exact h.nodup i
  · rw [h.maps, kept]

end Split

end Stasis.LinearHash
