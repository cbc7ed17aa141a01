import Stasis.TransactionTable.Slots

/-!
Every slot is somewhere.

If threads exit only when the transactions that they have begun have ended, a slot that no
transaction has is free, or reserved by one thread that has not exited. What a thread relies on
while it is in a call is what a slot holds; only one thread at a time relies on a slot, and a
step changes one slot and one thread.
-/
namespace Stasis.Slots
open TransactionTable Function List
variable {Thread : Type} [DecidableEq Thread]

/-- What a thread relies on: the slot holds the value. -/
def Local.Needs (l : Local) (x v : Int) : Prop :=
  match l.call with
  | .begun y => x = y ∧ v = pendingXtableXid
  | .fetching y _ | .swapping y _ _ => x = y ∧ v = x
  | .exiting i => x ∈ l.indexes.drop i ∧ v = reservedXtableXid
  | .idle | .fast _ | .slow _ | .exited => False

/-- What a call knows by itself. -/
def Local.Knows (l : Local) : Prop :=
  match l.call with
  | .begun y => y ∈ l.indexes
  | .fetching y new => InRange y ∧ new = reservedXtableXid
  | .swapping y new seen => InRange y ∧ new = reservedXtableXid ∧ seen = y
  | .slow i => 0 ≤ i
  | .idle | .fast _ | .exiting _ | .exited => True

structure LocalInv (l : Local) : Prop where
  nodup : l.indexes.Nodup
  range : ∀ x ∈ l.indexes, InRange x
  knows : l.Knows

structure SlotInv (s : State Thread) (x : Int) : Prop where
  value : (s.tbl x).xid = invalidXtableXid ∨ (s.tbl x).xid = reservedXtableXid ∨
    (s.tbl x).xid = pendingXtableXid ∨ (s.tbl x).xid = x
  free : (s.tbl x).xid = invalidXtableXid → ∀ t, x ∉ (s.threads t).pool
  owned : (s.tbl x).xid ≠ invalidXtableXid →
    (s.tbl x).xidWhenFree = reservedXtableXid ∧ ∃ t, x ∈ (s.threads t).pool
  alone : ∀ t t', x ∈ (s.threads t).pool → x ∈ (s.threads t').pool → t = t'
  running : s.running x = true ↔
    (s.tbl x).xid = pendingXtableXid ∨ (s.tbl x).xid = x

structure Inv (s : State Thread) : Prop where
  locals : ∀ t, LocalInv (s.threads t)
  needs : ∀ t x v, (s.threads t).Needs x v → (s.tbl x).xid = v
  single : ∀ t t' x v v', (s.threads t).Needs x v → (s.threads t').Needs x v' → t = t'
  slots : ∀ x, InRange x → SlotInv s x

section Values
variable {after : State Thread}

theorem xtableXids : invalidXtableXid = -1 ∧ pendingXtableXid = -2 ∧ reservedXtableXid = -3 :=
  ⟨rfl, rfl, rfl⟩

theorem testAndSetEntry_some (h : testAndSetEntry tbl x old new = some tbl') :
    (tbl x).xid = old ∧ tbl' = tbl.set x { tbl x with xid := new } := by
  rw [testAndSetEntry] at h
  split at h
  · next eq => exact ⟨eq, (Option.some.inj h).symm⟩
  · cases h

omit [DecidableEq Thread] in
/-- Why a thread relies on a slot: it has just taken it, it ends its transaction, or it is about
to give it back. -/
theorem Inv.needs_cases (h : Inv s) (need : (s.threads t).Needs x v) :
    InRange x ∧ (((s.tbl x).xid = pendingXtableXid ∧ x ∈ (s.threads t).pool) ∨
      ((s.tbl x).xid = x ∧ (s.threads t).call.Ends x) ∨
      ((s.tbl x).xid = reservedXtableXid ∧ x ∈ (s.threads t).pool)) := by
  rw [h.needs t x v need]
  have own := h.locals t
  have knows := own.knows
  rw [Local.Needs] at need
  rw [Local.Knows] at knows
  cases call : (s.threads t).call with
  | begun y =>
    simp only [call] at need knows
    obtain ⟨rfl, rfl⟩ := need
    have mem : x ∈ (s.threads t).pool := by
      rw [Local.pool, call]
      exact knows
    exact ⟨own.range x knows, .inl ⟨rfl, mem⟩⟩
  | fetching y new | swapping y new seen =>
    simp only [call] at need knows
    obtain ⟨rfl, rfl⟩ := need
    exact ⟨knows.1, .inr (.inl ⟨rfl, rfl⟩)⟩
  | exiting i =>
    simp only [call] at need
    have mem : x ∈ (s.threads t).pool := by
      rw [Local.pool, call]
      exact need.1
    exact ⟨own.range x (mem_of_mem_drop need.1), .inr (.inr ⟨need.2, mem⟩)⟩
  | idle | fast i | slow i | exited =>
    simp only [call] at need

omit [DecidableEq Thread] in
theorem Inv.unneeded_free (h : Inv s) (free : (s.tbl x).xid = invalidXtableXid) (t' : Thread)
    (v : Int) : ¬(s.threads t').Needs x v := by
  intro need
  obtain ⟨range, kinds⟩ := h.needs_cases need
  have low := range.1
  obtain ⟨invalid, pending, reserved⟩ := xtableXids
  omega

omit [DecidableEq Thread] in
theorem Inv.unneeded_reserved (h : Inv s) (reserved : (s.tbl x).xid = reservedXtableXid)
    (mem : x ∈ (s.threads t).pool) (t' : Thread) (v : Int) (ne : t' ≠ t) :
    ¬(s.threads t').Needs x v := by
  intro need
  obtain ⟨range, kinds⟩ := h.needs_cases need
  have low := range.1
  obtain ⟨invalidEq, pendingEq, reservedEq⟩ := xtableXids
  rcases kinds with ⟨pending, _⟩ | ⟨own, _⟩ | ⟨_, theirs⟩
  · omega
  · omega
  · exact ne ((h.slots x range).alone t' t theirs mem)

omit [DecidableEq Thread] in
theorem Inv.unneeded_active (h : Inv s) (active : (s.tbl x).xid = x)
    (ends : ∀ t, ¬(s.threads t).call.Ends x) (t' : Thread) (v : Int) :
    ¬(s.threads t').Needs x v := by
  intro need
  obtain ⟨range, kinds⟩ := h.needs_cases need
  have low := range.1
  obtain ⟨invalidEq, pendingEq, reservedEq⟩ := xtableXids
  rcases kinds with ⟨pending, _⟩ | ⟨_, ends'⟩ | ⟨reserved, _⟩
  · omega
  · exact ends t' ends'
  · omega

omit [DecidableEq Thread] in
theorem SlotInv.move (h : SlotInv s x) (taken : (s.tbl x).xid ≠ invalidXtableXid) (range :
      InRange x)
    (pools : ∀ t, x ∈ (after.threads t).pool ↔ x ∈ (s.threads t).pool)
    (whenFree : (after.tbl x).xidWhenFree = (s.tbl x).xidWhenFree)
    (value : (after.tbl x).xid = reservedXtableXid ∧ after.running x = false ∨
      ((after.tbl x).xid = pendingXtableXid ∨ (after.tbl x).xid = x) ∧ after.running x = true) :
    SlotInv after x := by
  have low := range.1
  obtain ⟨invalidEq, pendingEq, reservedEq⟩ := xtableXids
  obtain ⟨reserves, t, mem⟩ := h.owned taken
  refine ⟨?_, fun free => ?_, fun _ => ⟨whenFree.trans reserves, t, (pools t).mpr mem⟩,
    fun t1 t2 mem mem' => h.alone t1 t2 ((pools t1).mp mem) ((pools t2).mp mem'), ?_⟩
  · omega
  · omega
  · rcases value with ⟨value, running⟩ | ⟨value, running⟩
    · rw [running]
      refine ⟨nofun, fun held => ?_⟩
      omega
    · exact ⟨fun _ => value, fun _ => running⟩

end Values

section Step
variable {s after : State Thread} {t : Thread} {l : Local} {x : Int}

omit [DecidableEq Thread] in
theorem SlotInv.congr (h : SlotInv s y) (tbl : after.tbl y = s.tbl y)
    (running : after.running y = s.running y)
    (pools : ∀ t, y ∈ (after.threads t).pool ↔ y ∈ (s.threads t).pool) : SlotInv after y := by
  refine ⟨?_, fun free t => ?_, fun taken => ?_, fun t1 t2 mem mem' => ?_, ?_⟩
  · rw [tbl]
    exact h.value
  · rw [pools]
    rw [tbl] at free
    exact h.free free t
  · rw [tbl] at taken ⊢
    obtain ⟨whenFree, t, mem⟩ := h.owned taken
    exact ⟨whenFree, t, (pools t).mpr mem⟩
  · exact h.alone t1 t2 ((pools t1).mp mem) ((pools t2).mp mem')
  · rw [tbl, running]
    exact h.running

/-- A step changes a thread and a slot. -/
structure Changes (s after : State Thread) (t : Thread) (l : Local) (x : Int) : Prop where
  threads : after.threads = update s.threads t l
  tbl : ∀ y, y ≠ x → after.tbl y = s.tbl y
  running : ∀ y, y ≠ x → after.running y = s.running y

theorem Inv.change (h : Inv s) (changes : Changes s after t l x) (own : LocalInv l)
    (pool : ∀ y, y ≠ x → (y ∈ l.pool ↔ y ∈ (s.threads t).pool))
    (needs : ∀ y v, l.Needs y v → (after.tbl y).xid = v ∧
      ∀ t' v', t' ≠ t → ¬(s.threads t').Needs y v')
    (others : ∀ t' v, t' ≠ t → ¬(s.threads t').Needs x v)
    (slot : InRange x → SlotInv after x) : Inv after := by
  have self : after.threads t = l := by rw [changes.threads, update_self]
  have other : ∀ {t'}, t' ≠ t → after.threads t' = s.threads t' := fun ne => by
    rw [changes.threads, update_of_ne ne]
  refine ⟨?_, fun t' y v need => ?_, fun t1 t2 y v v' need need' => ?_, fun y range => ?_⟩
  · rw [changes.threads]
    exact (forall_update_iff s.threads fun _ l => LocalInv l).mpr ⟨own, fun t' _ => h.locals t'⟩
  · by_cases same : t' = t
    · rw [same, self] at need
      exact (needs y v need).1
    · rw [other same] at need
      have elsewhere : y ≠ x := fun eq => others t' v same (eq ▸ need)
      rw [changes.tbl y elsewhere]
      exact h.needs t' y v need
  · by_cases first : t1 = t
    · by_cases second : t2 = t
      · rw [first, second]
      · rw [first, self] at need
        rw [other second] at need'
        exact absurd need' ((needs y v need).2 t2 v' second)
    · rw [other first] at need
      by_cases second : t2 = t
      · rw [second, self] at need'
        exact absurd need ((needs y v' need').2 t1 v first)
      · rw [other second] at need'
        exact h.single t1 t2 y v v' need need'
  · by_cases same : y = x
    · rw [same] at range ⊢
      exact slot range
    · refine (h.slots y range).congr (changes.tbl y same) (changes.running y same) fun t' => ?_
      by_cases own : t' = t
      · rw [own, self]
        exact pool y same
      · rw [other own]

theorem Inv.setLocal (h : Inv s) (own : LocalInv l)
    (pool : ∀ y, y ∈ l.pool ↔ y ∈ (s.threads t).pool)
    (needs : ∀ y v, l.Needs y v → (s.tbl y).xid = v ∧
      ∀ t' v', t' ≠ t → ¬(s.threads t').Needs y v') : Inv (s.setLocal t l) := by
  -- No slot changes; any that is out of range will do.
  refine h.change (x := -1) ⟨rfl, fun _ _ => rfl, fun _ _ => rfl⟩ own (fun y _ => pool y) needs
    (fun t' v _ need => ?_) fun range => ?_
  · exact absurd (h.needs_cases need).1.1 (by decide)
  · exact absurd range.1 (by decide)

end Step
section Ops
variable {after : State Thread} {t : Thread}

/-- A call that has all the slots of its thread in its hands. -/
def Call.Whole : Call → Prop
  | .exiting _ | .exited => False
  | .idle | .fast _ | .slow _ | .begun _ | .fetching _ _ | .swapping _ _ _ => True

theorem pool_whole {l : Local} (whole : l.call.Whole) : l.pool = l.indexes := by
  rw [Local.pool]
  cases call : l.call with
  | exiting i | exited =>
    rw [call] at whole
    exact whole.elim
  | idle | fast i | slow i | begun y | fetching y new | swapping y new seen => rfl

omit [DecidableEq Thread] in
theorem Inv.knows (h : Inv s) (call : (s.threads t).call = c) :
    Local.Knows { s.threads t with call := c } := call ▸ (h.locals t).knows

theorem needs_of {l : Local} (call : l.call = c) (need : Local.Needs { l with call := c } x v) :
    l.Needs x v := by
  subst call
  exact need

theorem Inv.setCall (h : Inv s) {call : Call} (whole : (s.threads t).call.Whole)
    (whole' : call.Whole) (knows : Local.Knows { s.threads t with call := call })
    (needs : ∀ y v, Local.Needs { s.threads t with call := call } y v → (s.tbl y).xid = v ∧
      ∀ t' v', t' ≠ t → ¬(s.threads t').Needs y v') : Inv (s.setCall t call) := by
  have own := h.locals t
  refine h.setLocal ⟨own.nodup, own.range, knows⟩ (fun y => ?_) needs
  rw [pool_whole whole, pool_whole (l := { s.threads t with call := call }) whole']

theorem Inv.begin (h : Inv s) (run : Op.begin.run s t = .ok after) : Inv after := by
  rw [Op.run] at run
  split at run
  · next idle =>
    cases run
    exact h.setCall (idle ▸ trivial) trivial trivial nofun
  · cases run

theorem Inv.revalue (h : Inv s) (changes : Changes s after t l x) (own : LocalInv l)
    (here : after.tbl x = e) (pools : ∀ y, y ∈ l.pool ↔ y ∈ (s.threads t).pool)
    (needs : ∀ y v, l.Needs y v → y = x ∧ e.xid = v)
    (others : ∀ t' v, t' ≠ t → ¬(s.threads t').Needs x v)
    (taken : (s.tbl x).xid ≠ invalidXtableXid) (whenFree : e.xidWhenFree = (s.tbl x).xidWhenFree)
    (value : e.xid = reservedXtableXid ∧ after.running x = false ∨
      (e.xid = pendingXtableXid ∨ e.xid = x) ∧ after.running x = true) : Inv after := by
  subst here
  refine h.change changes own (fun y _ => pools y) (fun y v need => ?_) others fun range => ?_
  · obtain ⟨rfl, value⟩ := needs y v need
    exact ⟨value, others⟩
  · refine (h.slots x range).move taken range ?_ whenFree value
    rw [changes.threads]
    exact (forall_update_iff s.threads fun t' c => x ∈ c.pool ↔ x ∈ (s.threads t').pool).mpr
      ⟨pools x, fun _ _ => .rfl⟩

theorem Inv.nextFast (h : Inv s) {i : Nat} (call : (s.threads t).call = .fast i)
    (run : s.nextFast t i = .ok after) : Inv after := by
  have whole : (s.threads t).call.Whole := call ▸ trivial
  have own := h.locals t
  rw [State.nextFast] at run
  split at run
  · split at run
    · cases run
    · next x found =>
      have mem := mem_of_getElem? found
      split at run
      · next tbl swapped =>
        cases run
        obtain ⟨reserved, rfl⟩ := testAndSetEntry_some swapped
        have pooled : x ∈ (s.threads t).pool := by
          rw [pool_whole whole]
          exact mem
        refine h.revalue
          ⟨rfl, fun y ne => set_of_ne _ _ ne, fun y ne => update_of_ne ne ..⟩
          ⟨own.nodup, own.range, mem⟩ (set_self ..) (fun y => ?_) (fun y v need => ⟨need.1, need.2.symm⟩)
          (h.unneeded_reserved reserved pooled) (by rw [reserved]; decide) rfl
          (.inr ⟨.inl rfl, update_self ..⟩)
        rw [pool_whole whole]
        rfl
      · cases run
        exact h.setCall whole trivial trivial nofun
  · cases run
    exact h.setCall whole trivial (Int.le_refl 0) nofun

theorem Inv.nextSlow (h : Inv s) {i : Int} (call : (s.threads t).call = .slow i) :
    Inv (s.nextSlow t i) := by
  have whole : (s.threads t).call.Whole := call ▸ trivial
  have own := h.locals t
  have low : 0 ≤ i := h.knows call
  rw [State.nextSlow]
  split
  · next high =>
    have range : InRange i := ⟨low, high⟩
    split
    · next tbl swapped =>
      obtain ⟨free, rfl⟩ := testAndSetEntry_some swapped
      rw [set_self, TransactionTable.set_set]
      have absent := (h.slots i range).free free
      have fresh : i ∉ (s.threads t).indexes := by
        rw [← pool_whole whole]
        exact absent t
      refine h.change
        ⟨rfl, fun y ne => set_of_ne _ _ ne, fun y ne => update_of_ne ne ..⟩
        ⟨?_, fun y mem => ?_, mem_append_right _ (mem_singleton_self i)⟩
        (fun y ne => ?_) (fun y v need => ?_) (fun t' v _ => h.unneeded_free free t' v)
        fun _ => ⟨.inr (.inr (.inl (congrArg _ (set_self ..)))), fun value => ?_, fun _ => ?_,
          fun t1 t2 mem mem' => ?_, ⟨fun _ => .inl (congrArg _ (set_self ..)), fun _ => ?_⟩⟩
      · exact nodup_append.mpr ⟨own.nodup, nodup_singleton i, fun y mem z mem' => by
          rw [mem_singleton.mp mem']
          exact fun eq => fresh (eq ▸ mem)⟩
      · rcases mem_append.mp mem with old | new
        · exact own.range y old
        · rw [mem_singleton.mp new]
          exact range
      · rw [pool_whole whole, pool_whole (l := { s.threads t with
          lastEntry := i, indexes := (s.threads t).indexes ++ [i], call := .begun i }) trivial,
          mem_append, mem_singleton]
        exact or_iff_left ne
      · obtain ⟨rfl, rfl⟩ := need
        exact ⟨congrArg _ (set_self ..), fun t' v _ => h.unneeded_free free t' v⟩
      · have pending : pendingXtableXid = invalidXtableXid :=
          (congrArg _ (set_self ..)).symm.trans value
        exact absurd pending (by decide)
      · refine ⟨congrArg _ (set_self ..), t, ?_⟩
        rw [show State.threads _ t = _ from update_self ..]
        exact mem_append_right _ (mem_singleton_self i)
      · have mine : ∀ t', i ∈ (update s.threads t { s.threads t with
            lastEntry := i, indexes := (s.threads t).indexes ++ [i],
            call := .begun i } t').pool → t' = t := by
          intro t' mem
          by_contra ne
          rw [update_of_ne ne] at mem
          exact absent t' mem
        exact (mine t1 mem).trans (mine t2 mem').symm
      · exact update_self ..
    · exact h.setCall whole trivial (Int.add_nonneg low (by decide)) nofun
  · exact h.setCall whole trivial trivial nofun

theorem Inv.next (h : Inv s) (run : s.next t = .ok after) : Inv after := by
  rw [State.next] at run
  split at run
  · next i call => exact h.nextFast call run
  · next i call =>
    cases run
    exact h.nextSlow call
  · cases run

theorem Inv.start (h : Inv s) (run : s.start t = .ok after) : Inv after := by
  have own := h.locals t
  rw [State.start] at run
  split at run
  · next x call =>
    cases run
    have mem : x ∈ (s.threads t).indexes := h.knows call
    have need : (s.threads t).Needs x pendingXtableXid := needs_of call ⟨rfl, rfl⟩
    have pending := h.needs t x _ need
    have running : s.running x = true := ((h.slots x (own.range x mem)).running).mpr (.inl pending)
    refine h.revalue ⟨rfl, fun y ne => set_of_ne _ _ ne, fun _ _ => rfl⟩
      ⟨own.nodup, own.range, trivial⟩ (set_self ..) (fun y => ?_) nofun
      (fun t' v ne need' => ne (h.single t' t x v _ need' need)) (by rw [pending]; decide) rfl
      (.inr ⟨.inr rfl, running⟩)
    rw [pool_whole (l := s.threads t) (by rw [call]; trivial)]
    rfl
  · cases run

omit [DecidableEq Thread] in
theorem Inv.whenFree (h : Inv s) (range : InRange x) (active : (s.tbl x).xid = x) :
    (s.tbl x).xid ≠ invalidXtableXid ∧ (s.tbl x).xidWhenFree = reservedXtableXid := by
  have low := range.1
  obtain ⟨invalidEq, _⟩ := xtableXids
  have taken : (s.tbl x).xid ≠ invalidXtableXid := by omega
  exact ⟨taken, ((h.slots x range).owned taken).1⟩

theorem Inv.commit (h : Inv s) (allowed : (Op.commit x).Allowed s t)
    (run : (Op.commit x).run s t = .ok after) : Inv after := by
  obtain ⟨active, ends⟩ := allowed
  rw [Op.run] at run
  split at run
  · next idle =>
    split at run
    · next range =>
      cases run
      refine h.setCall (idle ▸ trivial) trivial ⟨range, (h.whenFree range active).2⟩ ?_
      intro y v need
      obtain ⟨rfl, rfl⟩ := need
      exact ⟨active, fun t' v' _ => h.unneeded_active active ends t' v'⟩
    · cases run
  · cases run

theorem Inv.fetch (h : Inv s) (run : s.fetch t = .ok after) : Inv after := by
  have own := h.locals t
  rw [State.fetch] at run
  split at run
  · next x new call =>
    cases run
    have need : (s.threads t).Needs x x := needs_of call ⟨rfl, rfl⟩
    have active := h.needs t x x need
    have knows : InRange x ∧ new = reservedXtableXid := h.knows call
    refine h.setCall (call ▸ trivial) trivial ⟨knows.1, knows.2, active⟩ ?_
    intro y v need'
    obtain ⟨rfl, rfl⟩ := need'
    exact ⟨active, fun t' v' ne need' => ne (h.single t' t _ v' _ need' need)⟩
  · cases run

theorem Inv.swap (h : Inv s) (run : s.swap t = .ok after) : Inv after := by
  have own := h.locals t
  rw [State.swap] at run
  split at run
  · next x new seen call =>
    obtain ⟨range, rfl, same⟩ := h.knows call
    rw [same] at run
    have need : (s.threads t).Needs x x := needs_of call ⟨rfl, rfl⟩
    split at run
    · next tbl swapped =>
      cases run
      obtain ⟨active, rfl⟩ := testAndSetEntry_some swapped
      refine h.revalue
        ⟨rfl, fun y ne => set_of_ne _ _ ne, fun y ne => update_of_ne ne ..⟩
        ⟨own.nodup, own.range, trivial⟩ (set_self ..) (fun y => ?_) nofun
        (fun t' v ne need' => ne (h.single t' t x v x need' need)) (h.whenFree range active).1 rfl
        (.inl ⟨rfl, update_self ..⟩)
      rw [pool_whole (l := s.threads t) (by rw [call]; trivial)]
      rfl
    · cases run
  · cases run

theorem Inv.forget (h : Inv s) (allowed : (Op.forget x).Allowed s t)
    (run : (Op.forget x).run s t = .ok after) : Inv after := by
  obtain ⟨active, ends⟩ := allowed
  rw [Op.run] at run
  split at run
  · next idle =>
    split at run
    · next range =>
      rw [State.forget] at run
      split at run
      · next tbl swapped =>
        cases run
        obtain ⟨_, rfl⟩ := testAndSetEntry_some swapped
        obtain ⟨taken, whenFree⟩ := h.whenFree range active
        refine h.revalue (t := t) ⟨(update_eq_self ..).symm,
          fun y ne => set_of_ne _ _ ne, fun y ne => update_of_ne ne ..⟩
          (h.locals t) (set_self ..) (fun _ => Iff.rfl) (fun y v need => ?_)
          (fun t' v _ => h.unneeded_active active ends t' v) taken rfl
          (.inl ⟨whenFree, update_self ..⟩)
        have need : (s.threads t).Needs y v := need
        rw [Local.Needs, idle] at need
        exact need.elim
      · next missed =>
        rw [testAndSetEntry, if_pos active] at missed
        cases missed
    · cases run
  · cases run

theorem Inv.exit (h : Inv s) (tidy : ∀ x ∈ (s.threads t).indexes, (s.tbl x).xid = reservedXtableXid)
    (run : Op.exit.run s t = .ok after) : Inv after := by
  have own := h.locals t
  rw [Op.run] at run
  split at run
  · next idle =>
    cases run
    have pool : (s.threads t).pool = (s.threads t).indexes := pool_whole (idle ▸ trivial)
    refine h.setLocal ⟨own.nodup, own.range, trivial⟩ (fun y => ?_) fun y v need => ?_
    · rw [pool]
      rfl
    · obtain ⟨mem, rfl⟩ := need
      have mem : y ∈ (s.threads t).indexes := mem
      have reserved := tidy y mem
      rw [← pool] at mem
      exact ⟨reserved, h.unneeded_reserved reserved mem⟩
  · cases run

theorem Inv.destroy (h : Inv s) (run : s.destroy t = .ok after) : Inv after := by
  have own := h.locals t
  rw [State.destroy] at run
  split at run
  · next i call =>
    have pool : (s.threads t).pool = (s.threads t).indexes.drop i := by rw [Local.pool, call]
    split at run
    · next x found =>
      cases run
      obtain ⟨short, getElem⟩ := List.getElem?_eq_some_iff.mp found
      have split : (s.threads t).indexes.drop i = x :: (s.threads t).indexes.drop (i + 1) := by
        rw [drop_eq_getElem_cons short, getElem]
      have gone : x ∉ (s.threads t).indexes.drop (i + 1) := by
        have nodup := own.nodup.sublist (drop_sublist i _)
        rw [split] at nodup
        exact (nodup_cons.mp nodup).1
      have need : (s.threads t).Needs x reservedXtableXid :=
        needs_of call ⟨split ▸ mem_cons_self, rfl⟩
      have reserved := h.needs t x _ need
      have mem : x ∈ (s.threads t).pool := by
        rw [pool, split]
        exact mem_cons_self
      have swapped : testAndSetEntry s.tbl x reservedXtableXid invalidXtableXid =
          some (s.tbl.set x { s.tbl x with xid := invalidXtableXid }) := by
        rw [testAndSetEntry, if_pos reserved]
      rw [swapped]
      have pools : ∀ t', x ∉ (update s.threads t { s.threads t with
          call := .exiting (i + 1) } t').pool := by
        refine (forall_update_iff s.threads fun _ c => x ∉ c.pool).mpr ⟨gone, fun t' ne theirs => ?_⟩
        exact ne ((h.slots x (own.range x (mem_of_getElem? found))).alone t' t theirs mem)
      refine h.change ⟨rfl, fun y ne => set_of_ne _ _ ne, fun _ _ => rfl⟩
        ⟨own.nodup, own.range, trivial⟩ (fun y ne => ?_) (fun y v need' => ?_)
        (fun t' v ne need' => ne (h.single t' t x v _ need' need))
        fun range => ⟨.inl (congrArg _ (set_self ..)), fun _ => pools, fun taken => ?_,
          fun t1 t2 mem _ => absurd mem (pools t1), ?_⟩
      · rw [pool, split, mem_cons]
        exact (or_iff_right ne).symm
      · obtain ⟨rest, rfl⟩ := need'
        have before : (s.threads t).Needs y reservedXtableXid :=
          needs_of call ⟨split ▸ mem_cons_of_mem _ rest, rfl⟩
        refine ⟨?_, fun t' v ne need' => ne (h.single t' t y v _ need' before)⟩
        rw [← h.needs t y _ before]
        exact congrArg _ (set_of_ne _ _ fun eq => gone (eq ▸ rest))
      · exact absurd (congrArg _ (set_self ..)) taken
      · have low := range.1
        obtain ⟨invalidEq, pendingEq, reservedEq⟩ := xtableXids
        have value : (s.tbl.set x { s.tbl x with xid := invalidXtableXid } x).xid =
            invalidXtableXid := congrArg _ (set_self ..)
        have idle : s.running x ≠ true := fun running => by
          have held := ((h.slots x range).running).mp running
          omega
        refine ⟨fun running => absurd running idle, fun held => ?_⟩
        have held : (s.tbl.set x { s.tbl x with xid := invalidXtableXid } x).xid =
          pendingXtableXid ∨ (s.tbl.set x { s.tbl x with xid := invalidXtableXid } x).xid = x := held
        omega
    · next done =>
      cases run
      have short : (s.threads t).indexes.length ≤ i := List.getElem?_eq_none_iff.mp done
      refine h.setLocal ⟨own.nodup, own.range, trivial⟩ (fun y => ?_) nofun
      rw [pool, drop_eq_nil_of_le short]
      rfl
  · cases run

omit [DecidableEq Thread] in
theorem Inv.init : Inv (State.init : State Thread) := by
  refine ⟨fun _ => ⟨nodup_nil, nofun, trivial⟩, nofun, nofun, fun x range => ?_⟩
  have low := range.1
  obtain ⟨invalidEq, pendingEq, _⟩ := xtableXids
  refine ⟨.inl rfl, fun _ _ => not_mem_nil, fun taken => absurd rfl taken,
    fun t t' mem => absurd mem not_mem_nil, nofun, fun held => ?_⟩
  have held : invalidXtableXid = pendingXtableXid ∨ invalidXtableXid = x := held
  omega

theorem Inv.step (h : Inv s) {op : Op} (tidy : op.Tidy s t) (run : op.run s t = .ok after) :
    Inv after := by
  cases op with
  | begin => exact h.begin run
  | next => exact h.next run
  | start => exact h.start run
  | commit x => exact h.commit tidy.1 run
  | fetch => exact h.fetch run
  | swap => exact h.swap run
  | forget x => exact h.forget tidy.1 run
  | exit => exact h.exit (tidy.2 rfl) run
  | destroy => exact h.destroy run

end Ops

theorem Reached.inv {s : State Thread} (h : Reached (fun s t op => op.Tidy s t) s) : Inv s :=
  Runs.Reached.invariant .init (fun _ _ _ _ inv tidy run => inv.step tidy run) h

/-- A slot that no transaction has is free, or reserved by one thread. -/
def Accounted (s : State Thread) (x : Int) : Prop :=
  ((s.tbl x).xid = invalidXtableXid ∧ ∀ t, x ∉ (s.threads t).pool) ∨
    ((s.tbl x).xid = reservedXtableXid ∧
      ∃ t, ((s.threads t).call ≠ .exited ∧ x ∈ (s.threads t).pool) ∧
        ∀ t', x ∈ (s.threads t').pool → t' = t)

/-- A begin is given no slot whose transaction has not ended; a slot that no transaction has is
accounted for; and when all have ended, and all threads that have begun one have exited, every
slot is free. -/
structure SlotsAccounted (s : State Thread) : Prop where
  begins : ∀ (t : Thread) (op : Op) (after : State Thread) (x : Int), op.run s t = .ok after →
    (after.threads t).call = .begun x → (s.threads t).call ≠ .begun x → s.running x = false
  accounted : ∀ x, InRange x → s.running x = false → Accounted s x
  allFree : (∀ x, InRange x → s.running x = false) →
    (∀ t, (s.threads t).indexes ≠ [] → (s.threads t).call = .exited) →
    ∀ x, InRange x → (s.tbl x).xid = invalidXtableXid

section Results
variable {s after : State Thread} {t : Thread} {x : Int}

omit [DecidableEq Thread] in
theorem SlotInv.accounted (h : SlotInv s x) (idle : s.running x = false) : Accounted s x := by
  have ended : ¬((s.tbl x).xid = pendingXtableXid ∨ (s.tbl x).xid = x) := fun held => by
    rw [h.running.mpr held] at idle
    cases idle
  rcases h.value with free | reserved | pending | active
  · exact .inl ⟨free, h.free free⟩
  · obtain ⟨_, t, mem⟩ := h.owned (by rw [reserved]; decide)
    refine .inr ⟨reserved, t, ⟨fun exited => ?_, mem⟩, fun t' mem' => h.alone t' t mem' mem⟩
    rw [Local.pool, exited] at mem
    cases mem
  · exact absurd (.inl pending) ended
  · exact absurd (.inr active) ended

theorem begun_idle (h : Inv s) {op : Op} (run : op.run s t = .ok after)
    (begun : (after.threads t).call = .begun x) (new : (s.threads t).call ≠ .begun x) :
    s.running x = false := by
  have taken : ∀ {old : Int}, InRange x → (s.tbl x).xid = old →
      old = reservedXtableXid ∨ old = invalidXtableXid → s.running x = false := by
    intro old range value kind
    have low := range.1
    obtain ⟨invalidEq, pendingEq, reservedEq⟩ := xtableXids
    refine Bool.eq_false_of_not_eq_true fun running => ?_
    have held := ((h.slots x range).running).mp running
    omega
  have never : ∀ {s' : State Thread} {call : Call},
      (.ok (s'.setCall t call) : Except Stop (State Thread)) = .ok after → call = .begun x := by
    intro s' call run
    rw [← Except.ok.inj run, show State.threads _ t = _ from update_self ..] at begun
    exact begun
  cases op with
  | next =>
    simp only [Op.run, State.next] at run
    split at run
    · next i fast =>
      rw [State.nextFast] at run
      split at run
      · split at run
        · cases run
        · next y found =>
          split at run
          · next tbl swapped =>
            cases run
            rw [show State.threads _ t = _ from update_self ..] at begun
            cases begun
            exact taken ((h.locals t).range x (mem_of_getElem? found))
              (testAndSetEntry_some swapped).1 (.inl rfl)
          · cases never run
      · cases never run
    · next i slow =>
      have low : 0 ≤ i := h.knows slow
      rw [State.nextSlow] at run
      split at run
      · next high =>
        split at run
        · next tbl swapped =>
          cases run
          rw [show State.threads _ t = _ from update_self ..] at begun
          cases begun
          exact taken ⟨low, high⟩ (testAndSetEntry_some swapped).1 (.inr rfl)
        · cases never run
      · cases never run
    · cases run
  | begin | start | fetch | exit =>
    simp only [Op.run, State.start, State.fetch] at run
    split at run
    · cases never run
    · cases run
  | commit y | swap =>
    simp only [Op.run, State.swap] at run
    split at run
    · split at run
      · cases never run
      · cases run
    · cases run
  | forget y =>
    simp only [Op.run, State.forget] at run
    split at run
    · split at run
      · split at run
        · cases run
          exact absurd begun new
        · split at run
          · cases run
            exact absurd begun new
          · cases run
      · cases run
    · cases run
  | destroy =>
    simp only [Op.run, State.destroy] at run
    split at run
    · split at run
      · cases never run
      · cases never run
    · cases run

theorem slots_accounted (h : Reached (fun s t op => op.Tidy s t) s) : SlotsAccounted s := by
  have inv := h.inv
  refine ⟨fun t op after x run begun new => begun_idle inv run begun new,
    fun x range idle => (inv.slots x range).accounted idle, fun idle exited x range => ?_⟩
  rcases (inv.slots x range).accounted (idle x range) with ⟨free, _⟩ | ⟨_, t, ⟨live, mem⟩, _⟩
  · exact free
  · refine absurd (exited t fun none => ?_) live
    rw [Local.pool] at mem
    split at mem
    · rw [none, drop_nil] at mem
      cases mem
    · cases mem
    all_goals
      rw [none] at mem
      cases mem

/-- Thread 0 begins a transaction. -/
def oneBegun : List (Fin 2 × Op) := [(0, .begin), (0, .next), (0, .next), (0, .start)]

/-- Another thread ends it. -/
def otherEnds : List (Fin 2 × Op) := [(1, .commit 0), (1, .fetch), (1, .swap)]

/-- The thread that has begun it exits. -/
def ownerExits : List (Fin 2 × Op) := [(0, .exit), (0, .destroy), (0, .destroy)]

theorem slots_accounted_two : ∃ s : State (Fin 2), Reached (fun s t op => op.Tidy s t) s ∧
    (s.tbl 0).xid = reservedXtableXid ∧ SlotsAccounted s := by
  obtain ⟨s, reached, reserved⟩ : ∃ s : State (Fin 2), Reached (fun s t op => op.Tidy s t) s ∧
      (s.tbl 0).xid = reservedXtableXid :=
    Runs.Reached.of_steps (oneBegun ++ otherEnds) (by decide +kernel)
  exact ⟨s, reached, reserved, slots_accounted reached⟩

/-- A thread exits before its transaction is ended by another one. The slot then is reserved, and
no thread has it. -/
theorem exited_slot_lost : ∃ s : State (Fin 2), Reached (fun s t op => op.Allowed s t) s ∧
    s.running 0 = false ∧ (s.threads 0).call = .exited ∧ (s.tbl 0).xid = reservedXtableXid ∧
    ∀ t, 0 ∉ (s.threads t).pool := by
  exact Runs.Reached.of_steps (oneBegun ++ ownerExits ++ otherEnds) (by decide +kernel)

end Results
end Stasis.Slots
