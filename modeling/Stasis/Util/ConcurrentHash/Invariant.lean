import Stasis.Library.Fallible
import Stasis.Util.ConcurrentHash.Turns

/-!
What holds between the steps of the threads that use the hash table.

A thread has the latches of its walk, and for a moment one more. An operation that has taken effect
is in the atomic order.
-/
namespace Stasis.ConcurrentHash
open Wheel Linearizable Function
open Probing (Walk)

section Latches
variable {T : Type} [DecidableEq T] {muts : Nat → Option (T × Nat)} {held : T → List Nat} {t : T}

/-- Each thread has the latches `held`, once. -/
structure Owned (muts : Nat → Option (T × Nat)) (held : T → List Nat) : Prop where
  latched : ∀ t, ∀ b ∈ held t, muts b = some (t, 1)
  owner : ∀ b t depth, muts b = some (t, depth) → b ∈ held t

omit [DecidableEq T] in
theorem Owned.unique (h : Owned muts held) {t u : T} (mem : i ∈ held t) (mem' : i ∈ held u) :
    t = u :=
  congrArg Prod.fst (Option.some.inj ((h.latched t i mem).symm.trans (h.latched u i mem')))

theorem lock_spec (h : Owned muts held) (new : i ∉ held t) :
    lock muts t i = .error .waits ∨ ∃ after, lock muts t i = .ok after ∧ (∀ u, i ∉ held u) ∧
      ∀ l, (∀ b, b ∈ l ↔ b = i ∨ b ∈ held t) → Owned after (update held t l) := by
  cases latch : muts i with
  | some owned =>
    obtain ⟨owner, depth⟩ := owned
    refine .inl ?_
    rw [lock, latch]
    refine if_neg ?_
    rintro rfl
    exact new (h.owner i owner depth latch)
  | none =>
    refine .inr ⟨_, by rw [lock, latch], fun u mem => ?_, fun l same => ⟨?_, ?_⟩⟩
    · cases latch.symm.trans (h.latched u i mem)
    · intro u b mem
      by_cases mine : u = t
      · subst mine
        rw [update_self] at mem
        by_cases at' : b = i
        · subst at'
          exact update_self ..
        · rw [update_of_ne at']
          exact h.latched u b (((same b).mp mem).resolve_left at')
      · rw [update_of_ne mine] at mem
        have other : b ≠ i := by
          rintro rfl
          cases latch.symm.trans (h.latched u b mem)
        rw [update_of_ne other]
        exact h.latched u b mem
    · intro b u depth found
      by_cases at' : b = i
      · subst at'
        rw [update_self] at found
        cases found
        rw [update_self]
        exact (same b).mpr (.inl rfl)
      · rw [update_of_ne at'] at found
        have mem := h.owner b u depth found
        by_cases mine : u = t
        · subst mine
          rw [update_self]
          exact (same b).mpr (.inr mem)
        · rwa [update_of_ne mine]

theorem unlock_spec (h : Owned muts held) (mem : i ∈ held t)
    (same : ∀ b, b ∈ l ↔ b ∈ held t ∧ b ≠ i) :
    Owned (unlock muts t i) (update held t l) := by
  have released : unlock muts t i = update muts i none := by
    rw [unlock, h.latched t i mem]
    exact if_pos rfl
  rw [released]
  constructor
  · intro u b mem'
    have other : b ≠ i ∧ b ∈ held u := by
      by_cases mine : u = t
      · subst mine
        rw [update_self] at mem'
        exact ((same b).mp mem').symm
      · rw [update_of_ne mine] at mem'
        refine ⟨?_, mem'⟩
        rintro rfl
        exact mine (h.unique mem' mem)
    rw [update_of_ne other.1]
    exact h.latched u b other.2
  · intro b u depth found
    have at' : b ≠ i := by
      rintro rfl
      rw [update_self] at found
      cases found
    rw [update_of_ne at'] at found
    have mem' := h.owner b u depth found
    by_cases mine : u = t
    · subst mine
      rw [update_self]
      exact (same b).mpr ⟨mem', at'⟩
    · rwa [update_of_ne mine]

end Latches

section Places
variable {V : Type}

/-- The latches of a thread. -/
def Pc.held : Pc V → List Nat
  | .idle => []
  | .entering _ => []
  | .advancing _ idx _ => [idx]
  | .trailing _ b2 idx _ => [b2, idx]
  | .removing _ _ idx2 _ => [idx2]
  | .skipping _ _ idx2 idx => [idx2, idx]
  | .skipped _ _ idx2 b1 idx => [idx2, b1, idx]
  | .compacted _ _ idx2 idx => [idx2, idx]
  | .cleared _ _ idx2 idx => [idx2, idx]
  | .finishing _ _ idx => [idx]

theorem Pc.held_of_holds {pc : Pc V} (walk : pc.walk cfg = some x) (holds : x.Holds b) :
    b ∈ pc.held := by
  unfold Walk.Holds at holds
  cases pc with
  | idle | entering | cleared | finishing => cases walk
  | advancing | trailing | removing | skipping | skipped | compacted =>
    cases walk
    rcases holds with rfl | hole
    · simp [Pc.held]
    · simp [Pc.held, Walk.hole, Walk.anchor] at hole ⊢ <;> simp [hole]

def Pc.Good (cfg : Config) : Pc V → Prop
  | .entering op => op.p ≠ -1
  | .advancing op idx numIncrs =>
    op.p ≠ -1 ∧ numIncrs = dist cfg.size (cfg.hashtableFunc op.p) idx + 1
  | .trailing op b2 idx numIncrs =>
    op.p ≠ -1 ∧ numIncrs = dist cfg.size (cfg.hashtableFunc op.p) idx ∧ b2 ≠ idx
  | .removing op _ idx2 idx => op.isRemove = true ∧ idx = next cfg.size idx2
  | .skipping op _ idx2 idx => op.isRemove = true ∧ idx2 ≠ idx
  | .skipped op _ idx2 b1 idx => op.isRemove = true ∧ idx2 ≠ b1 ∧ b1 ≠ idx
  | .compacted op _ idx2 idx => op.isRemove = true ∧ idx2 ≠ idx
  | .cleared _ _ idx2 idx => idx2 ≠ idx
  | _ => True

theorem Pc.Good.removes {pc : Pc V} (good : pc.Good cfg) (anchor : pc.anchor = some b) :
    pc.op.any Op.isRemove = true := by
  cases pc with
  | idle | entering | advancing | trailing | cleared | finishing => cases anchor
  | removing | skipping | skipped | compacted => exact good.1

/-- How far an operation is. -/
inductive Stage (V : Type) where
  | idle
  | called (op : Op V)
  | done (op : Op V) (ret : Option V)

def Pc.stage : Pc V → Stage V
  | .idle => .idle
  | .entering op => .called op
  | .advancing op _ _ => .called op
  | .trailing op _ _ _ => .called op
  | .removing op ret _ _ => .done op ret
  | .skipping op ret _ _ => .done op ret
  | .skipped op ret _ _ _ => .done op ret
  | .compacted op ret _ _ => .done op ret
  | .cleared op ret _ _ => .done op ret
  | .finishing op ret _ => .done op ret

/-- The operation `id` has been called, and is in the order if it has taken effect. -/
def Stage.Recorded (history : List (Event (Op V) (Option V)))
    (order : List (Atomic (Op V) (Option V))) (id : Nat) : Stage V → Prop
  | .idle => True
  | .called op => .call id op ∈ history ∧ id ∉ order.map Atomic.id
  | .done op ret => ⟨id, op, ret⟩ ∈ order

end Places

section Invariant
variable {T V : Type} {cfg : Config} {w : World T V} {order : List (Atomic (Op V) (Option V))}
  {m : Int → Option V} {t u : T}

def World.walks (cfg : Config) (w : World T V) : T → Option (Walk Int) := fun t => (w.pcs t).walk cfg

def World.held (w : World T V) : T → List Nat := fun t => (w.pcs t).held

structure Inv (cfg : Config) (w : World T V) (order : List (Atomic (Op V) (Option V)))
    (m : Int → Option V) : Prop where
  probes : Probes cfg w.buckets (w.walks cfg) m
  valid : ∀ b, (w.buckets b).Valid
  owned : Owned w.muts w.held
  good : ∀ t, (w.pcs t).Good cfg
  fresh : ∀ id ∈ w.history.filterMap Event.called, id < w.calls
  apart : ∀ t u, t ≠ u → w.pcs t ≠ .idle → w.pcs u ≠ .idle → w.now t ≠ w.now u
  recorded : ∀ t, (w.pcs t).stage.Recorded w.history order (w.now t)
  explains : Explains apply (fun _ => none) w.history order m

theorem init_inv (cfg : Config) : Inv cfg (.init : World T V) [] fun _ => none where
  probes := ⟨nofun, nofun, nofun, nofun, nofun, fun _ _ => ⟨nofun, nofun⟩⟩
  valid := fun _ => ⟨fun _ => rfl, fun _ => rfl⟩
  owned := ⟨nofun, nofun⟩
  good := fun _ => trivial
  fresh := nofun
  apart := fun _ _ _ busy => absurd rfl busy
  recorded := fun _ => trivial
  explains := .empty apply _

theorem Inv.called (h : Inv cfg w order m) (busy : w.pcs t ≠ .idle) :
    ∃ op, .call (w.now t) op ∈ w.history := by
  have recorded := h.recorded t
  cases found : (w.pcs t).stage with
  | idle =>
    refine absurd ?_ busy
    revert found
    cases w.pcs t <;> simp [Pc.stage]
  | called op =>
    rw [found] at recorded
    exact ⟨op, recorded.1⟩
  | done op ret =>
    rw [found] at recorded
    exact ⟨op, h.explains.called _ recorded⟩

theorem Inv.now_lt (h : Inv cfg w order m) (busy : w.pcs t ≠ .idle) : w.now t < w.calls := by
  obtain ⟨op, mem⟩ := h.called busy
  exact h.fresh _ (List.mem_filterMap.mpr ⟨_, mem, rfl⟩)

section Room
variable [Fintype T]

theorem Inv.occupied_le (h : Inv cfg w order m) :
    (Probing.occupied cfg.size (table w.buckets)).card ≤
      (w.present cfg).card + w.removals.card := by
  classical
  have anchors : ∀ b, Probing.Hole (w.walks cfg) b ↔ ∃ t, (w.pcs t).anchor = some b := by
    intro b
    refine exists_congr fun t => ?_
    rw [World.walks, Pc.hole_walk]
  let live := (Finset.range cfg.size).filter fun b =>
    (w.buckets b).val.isSome ∧ ∀ t, (w.pcs t).anchor ≠ some b
  have entries : ∀ b, (w.buckets b).val.isSome → ∃ v, table w.buckets b = some ((w.buckets b).key, v) := by
    intro b some
    obtain ⟨v, found⟩ := Option.isSome_iff_exists.mp some
    refine ⟨v, ?_⟩
    show (w.buckets b).entry = _
    rw [Bucket.entry, found]
    rfl
  have keys : (w.present cfg).card = live.card := by
    refine Finset.card_image_of_injOn fun b mem c mem' same => ?_
    obtain ⟨lt, some, free⟩ := Finset.mem_filter.mp mem
    obtain ⟨lt', some', free'⟩ := Finset.mem_filter.mp mem'
    obtain ⟨v, entry⟩ := entries b some
    obtain ⟨v', entry'⟩ := entries c some'
    refine h.probes.unique b (Finset.mem_range.mp lt) c (Finset.mem_range.mp lt') _ v v' entry
      ((show (w.buckets b).key = _ from same) ▸ entry') ?_ ?_
    · exact fun hole => (anchors b).mp hole |>.elim fun t at' => free t at'
    · exact fun hole => (anchors c).mp hole |>.elim fun t at' => free' t at'
  let holes := (Probing.occupied cfg.size (table w.buckets)).filter fun b =>
    ∃ t, (w.pcs t).anchor = some b
  have removals : holes.card ≤ w.removals.card := by
    have sub : holes.image some ⊆ w.removals.image fun t => (w.pcs t).anchor := by
      intro found mem
      obtain ⟨b, inside, rfl⟩ := Finset.mem_image.mp mem
      obtain ⟨t, at'⟩ := (Finset.mem_filter.mp inside).2
      refine Finset.mem_image.mpr ⟨t, Finset.mem_filter.mpr ⟨Finset.mem_univ t, ?_⟩, at'⟩
      exact (h.good t).removes at'
    rw [← Finset.card_image_of_injective holes (Option.some_injective Nat)]
    exact (Finset.card_le_card sub).trans Finset.card_image_le
  have split : Probing.occupied cfg.size (table w.buckets) ⊆ live ∪ holes := by
    intro b mem
    obtain ⟨lt, taken⟩ := Probing.mem_occupied.mp mem
    by_cases anchor : ∃ t, (w.pcs t).anchor = some b
    · exact Finset.mem_union_right _ (Finset.mem_filter.mpr ⟨mem, anchor⟩)
    · refine Finset.mem_union_left _ (Finset.mem_filter.mpr ⟨Finset.mem_range.mpr lt, ?_, ?_⟩)
      · cases found : (w.buckets b).val with
        | none =>
          refine absurd ?_ taken
          show (w.buckets b).entry = none
          rw [Bucket.entry, found]
          rfl
        | some v => rfl
      · exact fun t at' => anchor ⟨t, at'⟩
  calc (Probing.occupied cfg.size (table w.buckets)).card
      ≤ (live ∪ holes).card := Finset.card_le_card split
    _ ≤ live.card + holes.card := Finset.card_union_le ..
    _ ≤ (w.present cfg).card + w.removals.card := by omega

theorem Inv.few (h : Inv cfg w order m) (room : Room cfg w) :
    (Probing.occupied cfg.size (table w.buckets)).card < (cfg.size - 1) / 4 :=
  lt_of_le_of_lt h.occupied_le room

end Room

end Invariant

end Stasis.ConcurrentHash
