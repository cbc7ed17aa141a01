import Stasis.Util.ConcurrentHash.Invariant

/-!
The hash table is linearizable.

A step of a thread waits for a latch, or succeeds and keeps the invariant.
-/
namespace Stasis.ConcurrentHash
open Wheel Fallible Linearizable Function List
open Probing (Walk)

section Steps
variable {T V : Type} [DecidableEq T] {cfg : Config} {w : World T V}
  {order : List (Atomic (Op V) (Option V))} {m : Int → Option V} {t : T} {buckets : Nat → Bucket V}

theorem walks_setPc (w : World T V) (t : T) (pc : Pc V) :
    (w.setPc t pc).walks cfg = update (w.walks cfg) t (pc.walk cfg) :=
  Function.comp_update (Pc.walk cfg) w.pcs t pc

theorem held_setPc (w : World T V) (t : T) (pc : Pc V) :
    (w.setPc t pc).held = update w.held t pc.held :=
  Function.comp_update Pc.held w.pcs t pc

theorem Inv.move (h : Inv cfg w order m) (busy : w.pcs t ≠ .idle)
    (probes : Probes cfg buckets (update (w.walks cfg) t (pc.walk cfg)) m')
    (valid : ∀ b, (buckets b).Valid) (owned : Owned muts (update w.held t pc.held))
    (good : pc.Good cfg) (recorded : pc.stage.Recorded w.history order' (w.now t))
    (others : ∀ u, u ≠ t → (w.pcs u).stage.Recorded w.history order' (w.now u))
    (explains : Explains apply (fun _ => none) w.history order' m') :
    Inv cfg { w.setPc t pc with buckets := buckets, muts := muts } order' m' where
  probes := (walks_setPc w t pc).symm ▸ probes
  valid := valid
  owned := (held_setPc w t pc).symm ▸ owned
  good := (forall_update_iff w.pcs fun _ pc => pc.Good cfg).mpr ⟨good, fun u _ => h.good u⟩
  fresh := h.fresh
  apart := by
    have before : ∀ u, update w.pcs t pc u ≠ .idle → w.pcs u ≠ .idle := by
      intro u after
      by_cases same : u = t
      · exact same ▸ busy
      · rwa [update_of_ne same] at after
    exact fun u u' ne after after' => h.apart u u' ne (before u after) (before u' after')
  recorded := (forall_update_iff w.pcs fun u pc =>
    pc.stage.Recorded w.history order' (w.now u)).mpr ⟨recorded, others⟩
  explains := explains

section
variable (h : Inv cfg w order m) (busy : w.pcs t ≠ .idle)
include h busy

theorem Inv.quiet (probes : Probes cfg buckets (update (w.walks cfg) t (pc.walk cfg)) m)
    (valid : ∀ b, (buckets b).Valid) (owned : Owned muts (update w.held t pc.held))
    (good : pc.Good cfg) (stage : pc.stage = (w.pcs t).stage) :
    Inv cfg { w.setPc t pc with buckets := buckets, muts := muts } order m :=
  h.move busy probes valid owned good (stage.symm ▸ h.recorded t) (fun u _ => h.recorded u)
    h.explains

theorem Inv.commit (called : (w.pcs t).stage = .called op)
    (probes : Probes cfg buckets (update (w.walks cfg) t (pc.walk cfg)) (apply m op).1)
    (valid : ∀ b, (buckets b).Valid) (owned : Owned muts (update w.held t pc.held))
    (good : pc.Good cfg) (stage : pc.stage = .done op (apply m op).2) :
    Inv cfg { w.setPc t pc with buckets := buckets, muts := muts }
      (order ++ [⟨w.now t, op, (apply m op).2⟩]) (apply m op).1 := by
  have recorded := h.recorded t
  rw [called] at recorded
  refine h.move busy probes valid owned good ?_ (fun u other => ?_)
    (h.explains.commit recorded.1 recorded.2)
  · rw [stage]
    exact mem_append_right _ (mem_singleton_self _)
  · have before := h.recorded u
    have idle : w.pcs u = .idle ∨ w.now u ≠ w.now t := by
      by_cases idle : w.pcs u = .idle
      · exact .inl idle
      · exact .inr (h.apart u t other idle busy)
    cases found : (w.pcs u).stage with
    | idle => trivial
    | called op' =>
      rw [found] at before
      refine ⟨before.1, fun mem => ?_⟩
      rw [map_append] at mem
      rcases mem_append.mp mem with mem | mem
      · exact before.2 mem
      · rcases idle with idle | ne
        · rw [idle] at found
          cases found
        · exact ne (mem_singleton.mp mem)
    | done op' ret =>
      rw [found] at before
      exact mem_append_left _ before

theorem Inv.turned (called : (w.pcs t).stage = .called op) (key : op.p ≠ -1)
    (steps : numIncrs = dist cfg.size (cfg.hashtableFunc op.p) idx)
    (same : ∀ x, update walks t x = update (w.walks cfg) t x)
    (owned : Owned muts (update w.held t [idx]))
    (turned : Turned cfg w.buckets walks m t op idx numIncrs result) :
    ∃ order' m', Inv cfg { w.setPc t result.2 with buckets := result.1, muts := muts } order' m' := by
  cases turned with
  | passes probes =>
    rw [same] at probes
    exact ⟨order, m, h.quiet busy probes h.valid owned ⟨key, congrArg (· + 1) steps⟩ called.symm⟩
  | commits probes valid done =>
    rw [same] at probes
    cases done with
    | finishing => exact ⟨_, _, h.commit busy called probes valid owned trivial rfl⟩
    | removing isRemove =>
      exact ⟨_, _, h.commit busy called probes valid owned ⟨isRemove, rfl⟩ rfl⟩

end

theorem Removed.facts (removed : Removed op ret idx2 idx pc) (isRemove : op.isRemove = true)
    (ne : idx2 ≠ idx) : pc.held = [idx2, idx] ∧ pc.stage = .done op ret ∧ pc.Good cfg := by
  cases removed with
  | skipping => exact ⟨rfl, rfl, isRemove, ne⟩
  | compacted => exact ⟨rfl, rfl, isRemove, ne⟩
  | cleared => exact ⟨rfl, rfl, ne⟩

section
variable (h : Inv cfg w order m)
include h

theorem Inv.removed (busy : w.pcs t ≠ .idle)
    (done : (w.pcs t).stage = .done op ret) (isRemove : op.isRemove = true) (ne : idx2 ≠ idx)
    (same : ∀ x, update walks t x = update (w.walks cfg) t x)
    (owned : Owned muts (update w.held t [idx2, idx]))
    (probes : Probes cfg buckets (update walks t (pc.walk cfg)) m)
    (valid : ∀ b, (buckets b).Valid) (removed : Removed op ret idx2 idx pc) :
    Inv cfg { w.setPc t pc with buckets := buckets, muts := muts } order m := by
  obtain ⟨held, stage, good⟩ := removed.facts isRemove ne
  rw [same] at probes
  exact h.quiet busy probes valid (held.symm ▸ owned) good (stage.trans done.symm)

theorem Inv.returned (at' : w.pcs t = .finishing op ret idx) :
    Inv cfg { w.setPc t .idle with
      muts := unlock w.muts t idx
      history := w.history ++ [.ret (w.now t) ret] } order m := by
  have recorded := h.recorded t
  rw [at'] at recorded
  have held : w.held t = [idx] := congrArg Pc.held at'
  have gone : Owned (unlock w.muts t idx) (update w.held t []) := by
    refine unlock_spec h.owned (by rw [held]; exact mem_singleton_self idx) fun b => ?_
    rw [held]
    simp
  have walk : w.walks cfg t = none := congrArg (Pc.walk cfg) at'
  have probes : Probes cfg w.buckets (update (w.walks cfg) t none) m := by
    rw [Function.update_eq_self_iff.mpr walk.symm]
    exact h.probes
  have moved : Inv cfg { w.setPc t .idle with muts := unlock w.muts t idx } order m :=
    h.move (by rw [at']; exact nofun) probes h.valid gone trivial trivial
      (fun u _ => h.recorded u) h.explains
  refine ⟨moved.probes, moved.valid, moved.owned, moved.good, ?_, moved.apart, ?_,
    h.explains.ret recorded⟩
  · intro id mem
    rw [filterMap_append] at mem
    rcases mem_append.mp mem with mem | mem
    · exact h.fresh id mem
    · cases mem
  · intro u
    have before := moved.recorded u
    revert before
    show (update w.pcs t .idle u).stage.Recorded _ _ _ →
      (update w.pcs t .idle u).stage.Recorded _ _ _
    cases (update w.pcs t .idle u).stage with
    | idle => exact id
    | called op => exact fun before => ⟨mem_append_left _ before.1, before.2⟩
    | done op ret => exact id

theorem Inv.begun (idle : w.pcs t = .idle) (key : op.p ≠ -1) :
    Inv cfg { w.setPc t (.entering op) with
      now := update w.now t w.calls
      calls := w.calls + 1
      history := w.history ++ [.call w.calls op] } order m := by
  have new : w.calls ∉ w.history.filterMap Event.called := fun mem =>
    lt_irrefl _ (h.fresh _ mem)
  have others : ∀ u, u ≠ t → update w.pcs t (.entering op) u = w.pcs u ∧
      update w.now t w.calls u = w.now u :=
    fun u other => ⟨update_of_ne other .., update_of_ne other ..⟩
  refine ⟨?_, h.valid, ?_, ?_, ?_, ?_, ?_, h.explains.call new⟩
  · have same : (w.setPc t (.entering op)).walks cfg = w.walks cfg := by
      rw [walks_setPc]
      exact Function.update_eq_self_iff.mpr (congrArg (Pc.walk cfg) idle).symm
    exact same.symm ▸ h.probes
  · have same : (w.setPc t (.entering op)).held = w.held := by
      rw [held_setPc]
      exact Function.update_eq_self_iff.mpr (congrArg Pc.held idle).symm
    exact same.symm ▸ h.owned
  · exact (forall_update_iff w.pcs fun _ pc => pc.Good cfg).mpr ⟨key, fun u _ => h.good u⟩
  · intro id mem
    rw [filterMap_append] at mem
    rcases mem_append.mp mem with mem | mem
    · exact Nat.lt_succ_of_lt (h.fresh id mem)
    · exact (mem_singleton.mp mem) ▸ Nat.lt_succ_self _
  · intro u u' ne busy busy'
    show update w.now t w.calls u ≠ update w.now t w.calls u'
    by_cases same : u = t
    · subst same
      have old := (others u' ne.symm)
      rw [update_self, old.2]
      exact (h.now_lt fun idle => busy' (old.1.trans idle)).ne'
    · by_cases same' : u' = t
      · subst same'
        have old := others u ne
        rw [update_self, old.2]
        exact (h.now_lt fun idle => busy (old.1.trans idle)).ne
      · rw [(others u same).2, (others u' same').2]
        exact h.apart u u' ne (fun idle => busy ((others u same).1.trans idle))
          fun idle => busy' ((others u' same').1.trans idle)
  · intro u
    show (update w.pcs t (.entering op) u).stage.Recorded _ _
      (update w.now t w.calls u)
    by_cases same : u = t
    · subst same
      rw [update_self, update_self]
      refine ⟨mem_append_right _ (mem_singleton_self _), fun mem => new ?_⟩
      obtain ⟨x, inside, same⟩ := mem_map.mp mem
      exact same ▸ mem_filterMap.mpr ⟨_, h.explains.called x inside, rfl⟩
    · rw [(others u same).1, (others u same).2]
      have before := h.recorded u
      revert before
      cases (w.pcs u).stage with
      | idle => exact id
      | called op => exact fun before => ⟨mem_append_left _ before.1, before.2⟩
      | done op ret => exact id

/-- The thread waits for a latch, or its step succeeds. -/
def Proceeds (cfg : Config) (w : World T V) (t : T) : Prop :=
  w.step cfg t = .error .waits ∨ ∃ w' order m, w.step cfg t = .ok w' ∧ Inv cfg w' order m

theorem Inv.compacted (at' : w.pcs t = .compacted op ret idx2 idx) :
    Proceeds cfg w t := by
  have good := h.good t
  rw [at'] at good
  obtain ⟨isRemove, ne⟩ := good
  have held : w.held t = [idx2, idx] := congrArg Pc.held at'
  have walk : w.walks cfg t = some (.anchor idx) := congrArg (Pc.walk cfg) at'
  have lt : idx < cfg.size := (h.probes.good t _ walk).stop_lt
  rw [Proceeds, World.step, at']
  refine .inr ⟨_, order, m, rfl, ?_⟩
  refine h.quiet (by rw [at']; exact nofun) ?_ h.valid ?_ ⟨isRemove, hashtableWrap_succ lt⟩
    (by rw [at']; rfl)
  · rw [show Pc.walk cfg (.removing op ret idx _) = some (.anchor idx) from rfl,
      Function.update_eq_self_iff.mpr walk.symm]
    exact h.probes
  · refine unlock_spec h.owned (by rw [held]; exact mem_cons_self) fun b => ?_
    rw [held]
    simp [Pc.held]
    grind

theorem Inv.cleared (at' : w.pcs t = .cleared op ret idx2 idx) :
    Proceeds cfg w t := by
  have ne := h.good t
  rw [at'] at ne
  unfold Pc.Good at ne
  have held : w.held t = [idx2, idx] := congrArg Pc.held at'
  have walk : w.walks cfg t = none := congrArg (Pc.walk cfg) at'
  rw [Proceeds, World.step, at']
  refine .inr ⟨_, order, m, rfl, ?_⟩
  refine h.quiet (by rw [at']; exact nofun) ?_ h.valid ?_ trivial (by rw [at']; rfl)
  · rw [show Pc.walk cfg (.finishing op ret idx) = none from rfl,
      Function.update_eq_self_iff.mpr walk.symm]
    exact h.probes
  · refine unlock_spec h.owned (by rw [held]; exact mem_cons_self) fun b => ?_
    rw [held]
    simp [Pc.held]
    grind

end

section Room
variable [Fintype T]

section
variable (h : Inv cfg w order m) (room : Room cfg w)
include h room

theorem Inv.locked (at' : w.walks cfg t = some x) (full : x.full = true)
    (new : next cfg.size x.stop ∉ w.held t) :
    lock w.muts t (next cfg.size x.stop) = .error .waits ∨
      ∃ after, lock w.muts t (next cfg.size x.stop) = .ok after ∧
        (∀ l, (∀ b, b ∈ l ↔ b = next cfg.size x.stop ∨ b ∈ w.held t) →
          Owned after (update w.held t l)) ∧
        Probes cfg w.buckets (update (w.walks cfg) t
          (some { x with stop := next cfg.size x.stop, full := false })) m := by
  refine (lock_spec h.owned new).imp_right ?_
  rintro ⟨after, locked, free, owned⟩
  have few := h.few room
  refine ⟨after, locked, owned, h.probes.advance at' full (by omega) fun u y _ found holds => ?_⟩
  exact free u (Pc.held_of_holds found holds)

theorem Inv.entering (at' : w.pcs t = .entering op) : Proceeds cfg w t := by
  have key := h.good t
  rw [at'] at key
  have held : w.held t = [] := congrArg Pc.held at'
  have new : cfg.hashtableFunc op.p ∉ w.held t := by
    rw [held]
    simp
  rw [Proceeds, World.step, at']
  refine (lock_spec h.owned new).imp (fun waits => bind_eq_error.mpr (.inl waits)) ?_
  rintro ⟨after, locked, free, owned⟩
  have entered := h.probes.enter (congrArg (Pc.walk cfg) at') (hashtableFunc_lt cfg op.p)
    fun u y found holds => free u (Pc.held_of_holds found holds)
  obtain ⟨result, ran, turned⟩ := beginOpLoop_spec entered h.valid (update_self ..) key
    (lt_of_le_of_lt (Nat.zero_le _) room)
  obtain ⟨order', m', inv⟩ := h.turned (by rw [at']; simp) (by rw [at']; rfl) key
    (dist_self ..).symm (fun x => update_idem ..) (owned _ fun b => by rw [held]; simp)
    turned
  exact ⟨_, order', m', bind_ok locked (bind_ok ran rfl), inv⟩

theorem Inv.advancing (at' : w.pcs t = .advancing op idx numIncrs) : Proceeds cfg w t := by
  have good := h.good t
  rw [at'] at good
  have held : w.held t = [idx] := congrArg Pc.held at'
  have walk : w.walks cfg t = some ⟨cfg.hashtableFunc op.p, idx, true, some op.p⟩ :=
    congrArg (Pc.walk cfg) at'
  have few := h.few room
  have lt : idx < cfg.size := (h.probes.good t _ walk).stop_lt
  have ne := next_ne lt (by omega)
  have short : dist cfg.size (cfg.hashtableFunc op.p) idx + 1 ≤ _ :=
    (h.probes.good t _ walk).len_le
  have far := dist_next (hashtableFunc_lt cfg op.p) lt (by omega)
  rw [Proceeds, World.step, at']
  show (lock w.muts t (cfg.hashtableWrap (idx + 1)) >>= _) = _ ∨ ∃ _ _ _, (_ >>= _) = _ ∧ _
  rw [hashtableWrap_succ lt]
  refine (h.locked room walk rfl (by rw [held]; simpa using ne)).imp
    (fun waits => bind_eq_error.mpr (.inl waits)) ?_
  rintro ⟨after, locked, owned, probes⟩
  refine ⟨_, order, m, bind_ok locked rfl, ?_⟩
  refine h.quiet (by rw [at']; exact nofun) probes h.valid (owned _ fun b => ?_)
    ⟨good.1, good.2.trans far.symm, ne.symm⟩ (by rw [at']; rfl)
  rw [held]
  simp [Pc.held, or_comm]

theorem Inv.trailing (at' : w.pcs t = .trailing op b2 idx numIncrs) : Proceeds cfg w t := by
  have good := h.good t
  rw [at'] at good
  obtain ⟨key, steps, ne⟩ := good
  have held : w.held t = [b2, idx] := congrArg Pc.held at'
  have walk : w.walks cfg t = some ⟨cfg.hashtableFunc op.p, idx, false, some op.p⟩ :=
    congrArg (Pc.walk cfg) at'
  have few := h.few room
  have short : dist cfg.size (cfg.hashtableFunc op.p) idx + 0 ≤ _ :=
    (h.probes.good t _ walk).len_le
  obtain ⟨result, ran, turned⟩ := beginOpLoop_spec h.probes h.valid walk key
    (show numIncrs < (cfg.size - 1) / 4 by omega)
  have owned : Owned (unlock w.muts t b2) (update w.held t [idx]) := by
    refine unlock_spec h.owned (by rw [held]; exact mem_cons_self) fun b => ?_
    rw [held]
    simp
    grind
  obtain ⟨order', m', inv⟩ := h.turned (by rw [at']; exact nofun) (by rw [at']; rfl) key steps
    (fun _ => rfl) owned turned
  rw [Proceeds, World.step, at']
  exact .inr ⟨_, order', m', bind_ok ran rfl, inv⟩

theorem Inv.removing (at' : w.pcs t = .removing op ret idx2 idx) : Proceeds cfg w t := by
  have good := h.good t
  rw [at'] at good
  obtain ⟨isRemove, rfl⟩ := good
  have held : w.held t = [idx2] := congrArg Pc.held at'
  have walk : w.walks cfg t = some (.anchor idx2) := congrArg (Pc.walk cfg) at'
  have few := h.few room
  have lt : idx2 < cfg.size := (h.probes.good t _ walk).stop_lt
  have ne := next_ne lt (by omega)
  have new : next cfg.size idx2 ∉ w.held t := by
    rw [held]
    exact fun mem => ne (mem_singleton.mp mem)
  rw [Proceeds, World.step, at']
  refine (h.locked room walk rfl new).imp (fun waits => bind_eq_error.mpr (.inl waits)) ?_
  rintro ⟨after, locked, owned, probes⟩
  obtain ⟨buckets, pc, ran, probes, valid, removed⟩ := endOpLoop_spec op ret probes h.valid
    (update_self ..) (by omega)
  refine ⟨_, order, m, bind_ok locked (bind_ok ran rfl), ?_⟩
  refine h.removed (by rw [at']; exact nofun) (by rw [at']; rfl) isRemove ne.symm
    (fun x => update_idem ..) (owned _ fun b => ?_) probes valid removed
  rw [held]
  simp [or_comm, Walk.anchor]

theorem Inv.skipping (at' : w.pcs t = .skipping op ret idx2 idx) : Proceeds cfg w t := by
  have good := h.good t
  rw [at'] at good
  have held : w.held t = [idx2, idx] := congrArg Pc.held at'
  have walk : w.walks cfg t = some ⟨idx2, idx, true, none⟩ := congrArg (Pc.walk cfg) at'
  have few := h.few room
  have old := h.probes.good t _ walk
  have lt : idx < cfg.size := old.stop_lt
  have ne := next_ne lt (by omega)
  have short : dist cfg.size idx2 idx + 1 ≤ _ := old.len_le
  have start : idx2 < cfg.size := old.start_lt
  have far := dist_next start lt (by omega)
  have ahead : next cfg.size idx ≠ idx2 := by
    intro same
    rw [same, dist_self] at far
    omega
  rw [Proceeds, World.step, at']
  show (lock w.muts t (cfg.hashtableWrap (idx + 1)) >>= _) = _ ∨ ∃ _ _ _, (_ >>= _) = _ ∧ _
  rw [hashtableWrap_succ lt]
  refine (h.locked room walk rfl (by rw [held]; simpa using ⟨ahead, ne⟩)).imp
    (fun waits => bind_eq_error.mpr (.inl waits)) ?_
  rintro ⟨after, locked, owned, probes⟩
  refine ⟨_, order, m, bind_ok locked rfl, ?_⟩
  refine h.quiet (by rw [at']; exact nofun) probes h.valid (owned _ fun b => ?_)
    ⟨good.1, good.2, ne.symm⟩ (by rw [at']; rfl)
  rw [held]
  simp [Pc.held]
  grind

theorem Inv.skipped (at' : w.pcs t = .skipped op ret idx2 b1 idx) : Proceeds cfg w t := by
  have good := h.good t
  rw [at'] at good
  obtain ⟨isRemove, ne, ne'⟩ := good
  have held : w.held t = [idx2, b1, idx] := congrArg Pc.held at'
  have walk : w.walks cfg t = some ⟨idx2, idx, false, none⟩ := congrArg (Pc.walk cfg) at'
  have few := h.few room
  have apart : idx ≠ idx2 := (h.probes.good t _ walk).start_ne rfl rfl
  obtain ⟨buckets, pc, ran, probes, valid, removed⟩ := endOpLoop_spec op ret h.probes h.valid
    walk (by omega)
  have owned : Owned (unlock w.muts t b1) (update w.held t [idx2, idx]) := by
    refine unlock_spec h.owned (by rw [held]; simp) fun b => ?_
    rw [held]
    simp
    grind
  rw [Proceeds, World.step, at']
  refine .inr ⟨_, order, m, bind_ok ran rfl, ?_⟩
  exact h.removed (by rw [at']; exact nofun) (by rw [at']; rfl) isRemove apart.symm
    (fun _ => rfl) owned probes valid removed

theorem Inv.step (busy : w.pcs t ≠ .idle) : Proceeds cfg w t := by
  cases at' : w.pcs t with
  | idle => exact absurd at' busy
  | entering => exact h.entering room at'
  | advancing => exact h.advancing room at'
  | trailing => exact h.trailing room at'
  | removing => exact h.removing room at'
  | skipping => exact h.skipping room at'
  | skipped => exact h.skipped room at'
  | compacted => exact h.compacted at'
  | cleared => exact h.cleared at'
  | finishing => exact .inr ⟨_, order, m, by rw [World.step, at'], h.returned at'⟩

end

theorem Inv.run (h : Inv cfg w order m) (allowed : Allowed cfg w a) :
    run cfg w a = .error .waits ∨ ∃ w' order' m', run cfg w a = .ok w' ∧ Inv cfg w' order' m' := by
  cases a with
  | step t => exact h.step allowed.2 allowed.1
  | call t op =>
    obtain ⟨idle, key, _⟩ := allowed
    exact .inr ⟨_, order, m, if_neg key, h.begun idle key⟩

end Room

/-- Each key occupies one bucket, and the buckets from its position up to that one are occupied. -/
structure Settled (cfg : Config) (buckets : Nat → Bucket V) (m : Int → Option V) : Prop where
  present : ∀ k v, m k = some v ↔ ∃ b < cfg.size, buckets b = ⟨k, some v⟩
  once : ∀ b < cfg.size, ∀ c < cfg.size, (buckets b).key ≠ -1 →
    (buckets b).key = (buckets c).key → b = c
  near : ∀ b < cfg.size, (buckets b).val ≠ none → ∀ c < cfg.size,
    dist cfg.size (cfg.hashtableFunc (buckets b).key) c ≤
      dist cfg.size (cfg.hashtableFunc (buckets b).key) b → (buckets c).val ≠ none

omit [DecidableEq T] in
theorem Inv.settled (h : Inv cfg w order m) (idle : ∀ t, w.pcs t = .idle) :
    Settled cfg w.buckets m := by
  have live : ∀ b, ¬ Probing.Hole (w.walks cfg) b := by
    rintro b ⟨t, hole⟩
    rw [World.walks, idle t] at hole
    cases hole
  have entry : ∀ b k v, table w.buckets b = some (k, v) ↔ w.buckets b = ⟨k, some v⟩ := by
    intro b k v
    show Option.map _ (w.buckets b).val = _ ↔ _
    cases w.buckets b with
    | mk key val => cases val <;> simp
  have taken : ∀ b, (w.buckets b).val ≠ none → ∃ v, w.buckets b = ⟨(w.buckets b).key, some v⟩ := by
    intro b some
    obtain ⟨v, found⟩ := Option.ne_none_iff_exists'.mp some
    refine ⟨v, ?_⟩
    rw [← found]
  refine ⟨fun k v => ?_, fun b lt c lt' key same => ?_, fun b lt some c lt' near => ?_⟩
  · rw [h.probes.map]
    refine exists_congr fun b => and_congr_right fun _ => ?_
    rw [entry]
    exact and_iff_left (live b)
  · obtain ⟨v, at'⟩ := taken b fun null => key ((h.valid b).mp null)
    obtain ⟨v', at''⟩ := taken c fun null => key (same.trans ((h.valid c).mp null))
    exact h.probes.unique b lt c lt' _ v v' ((entry b _ v).mpr at')
      ((entry c _ v').mpr (same ▸ at'')) (live b) (live c)
  · obtain ⟨v, at'⟩ := taken b some
    rcases Nat.lt_or_eq_of_le near with closer | same
    · have full := h.probes.shape b lt _ v ((entry b _ v).mpr at') (live b) c lt' closer
      refine fun null => full ?_
      show Option.map _ (w.buckets c).val = none
      rw [null]
      rfl
    · rwa [dist_inj (hashtableFunc_lt cfg _) lt' lt same]

theorem Reached.inv [Fintype T] (reached : Runs.Reached (run cfg) (Allowed cfg) .init w) :
    ∃ order m, Inv cfg w order m := by
  refine Runs.Reached.invariant (P := fun w => ∃ order m, Inv cfg w order m)
    ⟨[], _, init_inv cfg⟩ (fun s a after _ inv allowed ran => ?_) reached
  obtain ⟨order, m, inv⟩ := inv
  rcases inv.run allowed with waits | ⟨after', order', m', ran', inv'⟩
  · cases ran.symm.trans waits
  · cases ran.symm.trans ran'
    exact ⟨order', m', inv'⟩

/-- As long as there is room, the results are those of an atomic order that is consistent with real
time, and no assertion fails. Between the operations, every key can be found. -/
theorem concurrent_hash_linearizable [Fintype T] (cfg : Config) {w : World T V}
    (reached : Runs.Reached (run cfg) (Allowed cfg) .init w) :
    ∃ order m, Explains apply (fun _ => none) w.history order m ∧
      (∀ a, Allowed cfg w a → run cfg w a ≠ .error .fails) ∧
        ((∀ t, w.pcs t = .idle) → Settled cfg w.buckets m) := by
  obtain ⟨order, m, inv⟩ := Reached.inv reached
  refine ⟨order, m, inv.explains, fun a allowed fails => ?_, inv.settled⟩
  rcases inv.run allowed with waits | ⟨after, _, _, ran, _⟩
  · cases waits.symm.trans fails
  · cases ran.symm.trans fails

end Steps

instance {T V : Type} [DecidableEq T] [Fintype T] [DecidableEq V] (cfg : Config) (w : World T V) :
    (a : Action T V) → Decidable (Allowed cfg w a)
  | .call _ _ => inferInstanceAs (Decidable (_ ∧ _ ∧ _ < _))
  | .step _ => inferInstanceAs (Decidable (_ ∧ _ < _))

def thirtyTwo : Config := ⟨5, id⟩

def inserts : List (Action (Fin 2) Nat) :=
  [.call 0 (.insert 1 10), .step 0, .step 0, .call 0 (.insert 33 30), .step 0, .step 0, .step 0,
    .step 0, .call 1 (.testAndSet 65 50), .step 1, .step 1, .step 1, .step 1, .step 1, .step 1]

/-- The first key is removed behind a lookup of the last one, and both of the others are moved. -/
def overlaps : List (Action (Fin 2) Nat) :=
  [.call 0 (.remove 1), .call 1 (.lookup 65), .step 1, .step 1, .step 1, .step 0, .step 1, .step 1,
    .step 0, .step 0, .step 1, .step 0, .step 0, .step 0, .step 0, .step 0]

theorem concurrent_hash_linearizable_overlaps :
    ∃ w : World (Fin 2) Nat, w.history.drop 6 =
        [.call 3 (.remove 1), .call 4 (.lookup 65), .ret 4 (some 50), .ret 3 (some 10)] ∧
      w.buckets 2 = ⟨65, some 50⟩ ∧ w.buckets 3 = ⟨-1, none⟩ ∧
      ∃ order m, Explains apply (fun _ => none) w.history order m ∧
        (∀ a, Allowed thirtyTwo w a → run thirtyTwo w a ≠ .error .fails) ∧
          ((∀ t, w.pcs t = .idle) → Settled thirtyTwo w.buckets m) := by
  obtain ⟨w, ran, history, second, third⟩ : ∃ w, (inserts ++ overlaps).foldlM
      (Runs.tryStep (run thirtyTwo) (Allowed thirtyTwo)) .init = some w ∧ w.history.drop 6 =
        [.call 3 (.remove 1), .call 4 (.lookup 65), .ret 4 (some 50), .ret 3 (some 10)] ∧
      w.buckets 2 = ⟨65, some 50⟩ ∧ w.buckets 3 = ⟨-1, none⟩ := by
    decide +kernel
  exact ⟨w, history, second, third,
    concurrent_hash_linearizable thirtyTwo (Runs.Reached.start.steps ran)⟩

end Stasis.ConcurrentHash
