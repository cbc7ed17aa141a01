import Stasis.BufferManager.BufferHash.Invariant

/-!
Coherence of the buffer manager under every interleaving of its threads.

Each function of the buffer manager is followed from a state in which the invariant holds. It
reaches no assertion that fails, changes frames one at a time, and takes a frame away from its
page only if nobody uses it.
-/
namespace Stasis.BufferHash
open Fallible Function Option

variable {T C : Type} {cfg : Config C} {w : World T C} {f : Nat} {pageid : Int}

/-- Frames that lost their page were not in use. -/
def Kept (w w' : World T C) : Prop :=
  ∀ g < w.b.pageCount, (w'.b.pages g).id ≠ (w.b.pages g).id →
    (w.b.pages g).pinCount = 0 ∧ (w.b.pages g).pending = false ∧ (w.b.pages g).dirty = false

variable {w' : World T C} {b : Pool C}

theorem kept_of_ids (ids : ∀ g, (w'.b.pages g).id = (w.b.pages g).id) : Kept w w' :=
  fun g _ changed => absurd (ids g) changed

theorem lruRemove_ok (h : Inv cfg w) (lt : f < w.b.pageCount) :
    w.b.lruRemove f = .ok (w.b.pin f) := by
  have good := h.frames f lt
  rw [Pool.lruRemove]
  by_cases zero : (w.b.pages f).pinCount = 0
  · exact (if_pos zero).trans (if_pos (good.lru.mpr zero))
  · refine (if_neg zero).trans ?_
    rw [Pool.pin, List.erase_of_not_mem fun mem => zero (good.lru.mp mem)]
    rfl

theorem set_id (b : Pool C) (f : Nat) (p : Page C) (same : p.id = (b.pages f).id) (g : Nat) :
    ((b.set f p).pages g).id = (b.pages g).id := by
  by_cases eq : g = f
  · rw [eq, set_self, same]
  · rw [set_of_ne _ _ eq]

/-- The pool in which `getFreePage` has found a frame for the page. -/
structure Prepared (b b' : Pool C) (f : Nat) : Prop where
  count : b'.pageCount = max b.pageCount (f + 1)
  cached : ∀ i, b'.cachedPages i = if b.cachedPages i = some f then none else b.cachedPages i
  pages : ∀ g, g ≠ f → b'.pages g = b.pages g
  pinCount : (b'.pages f).pinCount = 1
  pending : (b'.pages f).pending = false
  dirty : (b'.pages f).dirty = false
  lru : b'.lru = b.lru.erase f
  file : b'.file = b.file

theorem freePage_ok (h : Inv cfg w) (prepared : Prepared w.b b f) :
    freePage b f = .ok (.page b f) := by
  refine if_neg ?_
  rw [prepared.pending, prepared.lru, prepared.pinCount, prepared.dirty]
  rintro (pending | mem | pinned | dirty)
  · cases pending
  · exact h.nodup.not_mem_erase mem
  · exact pinned rfl
  · cases dirty

/-- The pool without a frame that is evicted. -/
def Pool.evict (b : Pool C) (f : Nat) : Pool C :=
  { b.pin f with cachedPages := update b.cachedPages (b.pages f).id none }

theorem evict_prepared (h : Inv cfg w) (lt : f < w.b.pageCount) (zero : (w.b.pages f).pinCount = 0)
    (resting : (w.b.pages f).pending = false) (clean : (w.b.pages f).dirty = false) :
    Prepared w.b (w.b.evict f) f := by
  refine ⟨?_, fun i => ?_, fun g ne => pin_of_ne _ ne, ?_, ?_, ?_, rfl, rfl⟩
  · show w.b.pageCount = _
    omega
  · show update w.b.cachedPages (w.b.pages f).id none i = _
    by_cases eq : i = (w.b.pages f).id
    · rw [eq, update_self, (h.frames f lt).cached, if_pos rfl]
    · rw [update_of_ne eq, if_neg fun found => eq (h.carried i f found).2.symm]
  · show ((w.b.pin f).pages f).pinCount = 1
    rw [pin_self, zero]
    rfl
  · show ((w.b.pin f).pages f).pending = false
    rw [pin_self, resting]
  · show ((w.b.pin f).pages f).dirty = false
    rw [pin_self, clean]

theorem stalePage_spec (h : Inv cfg w) (unpinned : ∃ f < w.b.pageCount,
      (w.b.pages f).pinCount = 0) :
    stalePage w.b = .ok .flush ∨ ∃ f ∈ w.b.lru, (w.b.pages f).pinCount = 0 ∧
      (w.b.pages f).pending = false ∧ (w.b.pages f).dirty = false ∧
      stalePage w.b = .ok (.page (w.b.evict f) f) := by
  obtain ⟨g, ltG, zeroG⟩ := unpinned
  have there := (h.frames g ltG).lru.mpr zeroG
  rw [stalePage, Pool.getStale]
  cases eq : w.b.lru with
  | nil =>
    rw [eq] at there
    cases there
  | cons f rest =>
    have mem : f ∈ w.b.lru := eq ▸ .head _
    have lt := h.inside f mem
    have good := h.frames f lt
    have zero := good.lru.mp mem
    have resting : (w.b.pages f).pending = false := by
      refine Bool.eq_false_iff.mpr fun pending => ?_
      have pinned := good.pinned
      rw [zero, pending] at pinned
      simp only [if_true] at pinned
      omega
    have usable : ¬ ((w.b.pages f).pinCount ≠ 0 ∨ (w.b.pages f).pending = true) := by
      rw [zero, resting]
      simp
    cases dirty : (w.b.pages f).dirty with
    | true => exact .inl ((if_neg usable).trans (if_pos dirty))
    | false =>
      refine .inr ⟨f, .head _, zero, resting, dirty, ?_⟩
      refine (if_neg usable).trans ((if_neg (by rw [dirty]; exact nofun)).trans ?_)
      refine bind_ok (lruRemove_ok h lt) ?_
      have cached : (w.b.pin f).cachedPages ((w.b.pin f).pages f).id = some f := by
        rw [pin_id]
        exact good.cached
      refine (if_neg (not_not.mpr cached)).trans ?_
      have free := freePage_ok h (evict_prepared h lt zero resting dirty)
      rw [pin_id]
      exact free

/-- The pool with a frame that was never used. -/
def Pool.malloc (b : Pool C) : Pool C :=
  { b.set b.pageCount { b.pages b.pageCount with id := -1, pending := false, pinCount := 1 } with
    pageCount := b.pageCount + 1 }

theorem malloc_prepared (h : Inv cfg w) : Prepared w.b w.b.malloc w.b.pageCount := by
  have out : ∀ i, w.b.cachedPages i ≠ some w.b.pageCount := fun i found => by
    have := (h.carried i _ found).1
    omega
  refine ⟨?_, fun i => (if_neg (out i)).symm, fun g ne => set_of_ne _ _ ne, ?_, ?_, ?_, ?_, rfl⟩
  · show w.b.pageCount + 1 = _
    omega
  · rw [Pool.malloc, set_self]
  · rw [Pool.malloc, set_self]
  · rw [Pool.malloc, set_self]
    exact h.unused _ le_rfl
  · refine (List.erase_of_not_mem fun mem => ?_).symm
    have := h.inside _ mem
    omega

theorem installed_of (prepared : Prepared b b1 f) (id : p.id = pageid) (pinCount : p.pinCount = 1)
    (dirty : p.dirty = false) :
    Installed b ({ b1 with cachedPages := update b1.cachedPages pageid (some f) }.set f p)
      pageid f := by
  refine ⟨prepared.count, fun i => ?_, fun g ne => ?_, ?_, ?_, ?_, prepared.lru, prepared.file⟩
  · show update b1.cachedPages pageid (some f) i = _
    rw [update_apply, prepared.cached]
  · rw [set_of_ne _ _ ne]
    exact prepared.pages g ne
  · rw [set_self, id]
  · rw [set_self, pinCount]
  · rw [set_self, dirty]

theorem kept_install (spare : Spare cfg w.b f) (installed : Installed w.b w'.b pageid f) :
    Kept w w' := by
  intro g lt changed
  have eq : g = f := by
    refine not_not.mp fun ne => changed ?_
    rw [installed.pages g ne]
  rcases spare with ⟨fresh, _⟩ | ⟨_, unused⟩
  · omega
  · rw [eq]
    exact unused

variable [DecidableEq T]

theorem after_b (w : World T C) (t : T) (pageid : Int) (u : Bool) (b : Pool C) (a : After) :
    (w.after t pageid u b a).b = b := by
  cases a <;> rfl

theorem hit_spec (h : Inv cfg w) (valid : pageid ≠ -1)
    (found : w.b.cachedPages pageid = some f) :
    ∃ b a, hit w.b pageid f = .ok (b, a) ∧ Inv cfg (w.after t pageid u b a) ∧
      ∀ g, (b.pages g).id = (w.b.pages g).id := by
  obtain ⟨lt, rfl⟩ := h.carried pageid f found
  rw [hit]
  cases pending : (w.b.pages f).pending with
  | true =>
    refine ⟨w.b, .waiting f, rfl, ?_, fun _ => rfl⟩
    have parked : Inv cfg (w.setPc t (.waiting (w.b.pages f).id u f)) :=
      h.park rfl ⟨lt, valid⟩
    exact parked
  | false =>
    refine ⟨w.b.pin f, .returned f false, bind_ok (lruRemove_ok h lt) (if_neg ?_), ?_,
      pin_id w.b f⟩
    · rw [not_not, pin_id]
    · have parked : Inv cfg (World.setPc _ t .idle) := (h.pin lt pending).park rfl trivial
      exact parked

theorem install_spec (h : Inv cfg w) (valid : pageid ≠ -1) (spare : Spare cfg w.b f)
    (prepared : Prepared w.b b1 f) (miss : b1.cachedPages pageid = none) :
    ∃ b a, install cfg b1 pageid u f = .ok (b, a) ∧
      Inv cfg (w.after t pageid u b a) ∧ Kept w (w.after t pageid u b a) := by
  have only : ∀ g, w.b.cachedPages pageid = some g → g = f := by
    intro g found
    have cached := prepared.cached pageid
    rw [miss, found] at cached
    split at cached
    · next same => exact some.inj same
    · cases cached
  have threads : ∀ {w' : World T C} {pc : Pc}, w'.pcs = update w.pcs t pc →
      Installed w.b w'.b pageid f → (∀ i, i ≠ pageid → w'.last i = w.last i) → pc.Good cfg w' →
      ∀ t', (w'.pcs t').Good cfg w' := by
    intro w' pc pcs installed last good
    rw [pcs]
    exact (forall_update_iff w.pcs fun _ pc => pc.Good cfg w').mpr
      ⟨good, fun t' _ => h.threads_install spare only installed last t'⟩
  cases u with
  | false =>
    have installed := installed_of prepared (p := { b1.pages f with id := pageid, pending := true })
      rfl prepared.pinCount prepared.dirty
    refine ⟨_, .reading f, (if_neg (not_not.mpr miss)).trans (if_neg Bool.false_ne_true), ?_,
      kept_install spare installed⟩
    have pending : ((Pool.set { b1 with
        cachedPages := update b1.cachedPages pageid (some f) } f
        { b1.pages f with id := pageid, pending := true }).pages f).pending = true := by
      rw [set_self]
    refine h.install spare valid only installed (fun v known => ⟨known, pending⟩)
      (.inl ⟨pending, rfl⟩) (fun _ _ => rfl) (threads rfl installed (fun _ _ => rfl) ⟨?_, pending, installed.id⟩) ?_
    · show f < b1.pageCount
      rw [prepared.count]
      omega
    · exact h.once_start rfl (h.spare_unread spare)
  | true =>
    have installed := installed_of prepared
      (p := ⟨pageid, false, (b1.pages f).pinCount, (b1.pages f).dirty, cfg.stamp (b1.pages f).contents⟩)
      rfl prepared.pinCount prepared.dirty
    have usable : ¬ ((b1.pages f).dirty = true ∨ f ∈ b1.lru) := by
      rw [prepared.dirty, prepared.lru]
      rintro (dirty | mem)
      · cases dirty
      · exact h.nodup.not_mem_erase mem
    refine ⟨_, .returned f true, (if_neg (not_not.mpr miss)).trans ((if_pos rfl).trans (if_neg usable)),
      ?_, kept_install spare installed⟩
    have last : ∀ i, i ≠ pageid → update w.last pageid none i = w.last i :=
      fun i ne => update_of_ne ne _ _
    refine h.install spare valid only installed (fun v known => ?_) (.inr ⟨?_, rfl⟩) last
      (threads rfl installed last trivial) (h.once_reader rfl nofun)
    · have given : update w.last pageid none pageid = some v := known
      rw [update_self] at given
      cases given
    · show ((Pool.set _ f _).pages f).pending = false
      rw [set_self]

omit [DecidableEq T] in
theorem putBack_ok (sequential : cfg.sequential = false) (h : Inv cfg w) (mem : f ∈ w.b.lru) :
    Pool.lruInsert cfg { w.b.evict f with
      cachedPages := update (w.b.evict f).cachedPages ((w.b.evict f).pages f).id (some f) } f =
      .ok { w.b with lru := w.b.lru.erase f ++ [f] } := by
  have lt := h.inside f mem
  have zero := (h.frames f lt).lru.mp mem
  have page : (w.b.evict f).pages f = { w.b.pages f with pinCount := 1 } := by
    refine (pin_self w.b f).trans ?_
    rw [zero]
    rfl
  have pages : update (w.b.evict f).pages f { (w.b.evict f).pages f with
      pinCount := ((w.b.evict f).pages f).pinCount - 1 } = w.b.pages := by
    rw [page]
    refine (update_idem ..).trans (Function.update_eq_self_iff.mpr ?_)
    show ({ w.b.pages f with pinCount := 0 } : Page C) = w.b.pages f
    rw [← zero]
  have cached : update (w.b.evict f).cachedPages ((w.b.evict f).pages f).id (some f) =
      w.b.cachedPages := by
    rw [page]
    exact (update_idem ..).trans (Function.update_eq_self_iff.mpr (h.frames f lt).cached.symm)
  have counted : ¬ ((w.b.evict f).pages f).pinCount - 1 < 0 := by
    rw [page]
    show ¬ (1 : Int) - 1 < 0
    decide
  have pushed : ((w.b.evict f).pages f).pinCount - 1 = 0 ∧
      ¬ (cfg.sequential = true ∧ ((w.b.evict f).pages f).dirty = true) := by
    rw [page, sequential]
    exact ⟨rfl, fun both => Bool.noConfusion both.1⟩
  refine (if_neg counted).trans ((if_pos pushed).trans ?_)
  show Except.ok (Pool.mk (update (w.b.evict f).pages f _) w.b.pageCount _ _ w.b.file) = _
  rw [pages, cached]
  rfl

theorem obtained_spec (sequential : cfg.sequential = false) (h : Inv cfg w) (valid : pageid ≠ -1)
    (mem : f ∈ w.b.lru) (resting : (w.b.pages f).pending = false)
    (clean : (w.b.pages f).dirty = false) :
    ∃ b a, obtained cfg pageid u (.page (w.b.evict f) f) w.b = .ok (b, a) ∧
      Inv cfg (w.after t pageid u b a) ∧ Kept w (w.after t pageid u b a) := by
  have lt := h.inside f mem
  have zero := (h.frames f lt).lru.mp mem
  have prepared := evict_prepared h lt zero resting clean
  rw [obtained]
  cases found : (w.b.evict f).cachedPages pageid with
  | none => exact install_spec h valid (.inr ⟨lt, zero, resting, clean⟩) prepared found
  | some ret =>
    have there : w.b.cachedPages pageid = some ret := by
      have cached := prepared.cached pageid
      rw [found] at cached
      split at cached
      · cases cached
      · exact cached.symm
    have rotated := h.rotate mem
    obtain ⟨b, a, ran, inv, ids⟩ := hit_spec (t := t) (u := u) rotated valid there
    refine ⟨b, a, bind_ok (putBack_ok sequential h mem) ran, ?_, kept_of_ids ?_⟩
    · cases a <;> exact inv
    · rw [after_b]
      exact ids

section
variable (sequential : cfg.sequential = false) (h : Inv cfg w)
include sequential h

theorem stale_spec (valid : pageid ≠ -1) (full : cfg.size ≤ w.b.pageCount)
    (available : Available cfg w.b) :
    ∃ free b a, stalePage w.b = .ok free ∧ obtained cfg pageid u free w.b = .ok (b, a) ∧
      Inv cfg (w.after t pageid u b a) ∧ Kept w (w.after t pageid u b a) := by
  rcases stalePage_spec h (available.resolve_left (not_lt.mpr full)) with
    flush | ⟨f, mem, _, resting, clean, found⟩
  · have parked : Inv cfg (w.setPc t (.flushing pageid u)) := h.park rfl ⟨full, valid⟩
    refine ⟨_, w.b, .flushing, flush, rfl, parked, kept_of_ids fun _ => ?_⟩
    rw [after_b]
  · obtain ⟨b, a, ran, after⟩ := obtained_spec (t := t) (u := u) sequential h valid mem resting clean
    exact ⟨_, b, a, found, ran, after⟩

theorem loadLoop_spec (valid : pageid ≠ -1) (available : Available cfg w.b) :
    ∃ b a, loadLoop cfg w.b pageid u (w.b.cachedPages pageid) = .ok (b, a) ∧
      Inv cfg (w.after t pageid u b a) ∧ Kept w (w.after t pageid u b a) := by
  cases found : w.b.cachedPages pageid with
  | some f =>
    obtain ⟨b, a, ran, inv, ids⟩ := hit_spec (t := t) (u := u) h valid found
    refine ⟨b, a, ran, inv, kept_of_ids ?_⟩
    rw [after_b]
    exact ids
  | none =>
    by_cases room : w.b.pageCount < cfg.size
    · have prepared := malloc_prepared h
      have clean : ¬ (w.b.pages w.b.pageCount).dirty = true := by
        rw [h.unused _ le_rfl]
        exact nofun
      have free : getFreePage cfg w.b = .ok (.page w.b.malloc w.b.pageCount) :=
        (if_pos room).trans ((if_neg clean).trans (freePage_ok h prepared))
      have miss : w.b.malloc.cachedPages pageid = none := found
      obtain ⟨b, a, ran, after⟩ :=
        install_spec (t := t) (u := u) h valid (.inl ⟨rfl, room⟩) prepared miss
      refine ⟨b, a, bind_ok free ?_, after⟩
      rw [obtained, miss]
      exact ran
    · obtain ⟨free, b, a, stale, ran, after⟩ :=
        stale_spec (t := t) (u := u) sequential h valid (not_lt.mp room) available
      exact ⟨b, a, bind_ok ((if_neg room).trans stale) ran, after⟩

theorem proceed_spec (busy : w.pcs t ≠ .idle) (available : Available cfg w.b) :
    ∃ w', w.proceed cfg t = .ok w' ∧ Inv cfg w' ∧ Kept w w' := by
  have good := h.threads t
  rw [World.proceed]
  cases pc : w.pcs t with
  | idle => exact absurd pc busy
  | waiting pageid u f =>
    rw [pc] at good
    obtain ⟨lt, valid⟩ := good
    have ret : (if (w.b.pages f).id = pageid then some f else w.b.cachedPages pageid) =
        w.b.cachedPages pageid := by
      split
      · next same => rw [← same, (h.frames f lt).cached]
      · rfl
    obtain ⟨b, a, ran, after⟩ := loadLoop_spec (t := t) (u := u) sequential h valid available
    refine ⟨w.after t pageid u b a, bind_ok (a := (b, a)) ?_ rfl, after⟩
    rw [ret]
    exact ran
  | flushing pageid u =>
    rw [pc] at good
    obtain ⟨free, b, a, stale, ran, after⟩ :=
      stale_spec (t := t) (u := u) sequential h good.2 good.1 available
    exact ⟨_, bind_ok stale (bind_ok ran rfl), after⟩
  | reading pageid f =>
    rw [pc] at good
    have clean : ¬ (w.b.pages f).dirty = true := by
      rw [(h.frames f good.1).pending good.2.1]
      exact nofun
    refine ⟨_, bind_ok (if_neg clean) rfl, h.read pc, kept_of_ids ?_⟩
    exact set_id w.b f { w.b.pages f with contents := w.b.file (w.b.pages f).id } rfl
  | loaded pageid f =>
    rw [pc] at good
    obtain ⟨⟨lt, pending, same⟩, _⟩ := good
    have pinned := (h.frames f lt).pinned
    rw [pending] at pinned
    simp only [if_true] at pinned
    have usable : ¬ (f ∈ w.b.lru ∨ (w.b.pages f).id ≠ pageid) := by
      rintro (mem | other)
      · have zero := (h.frames f lt).lru.mp mem
        omega
      · exact other same
    refine ⟨_, bind_ok (if_neg usable) rfl, h.finish pc, kept_of_ids ?_⟩
    exact set_id w.b f { w.b.pages f with pending := false } rfl

end

omit [DecidableEq T] in
theorem release_ok (sequential : cfg.sequential = false) (h : Inv cfg w)
    (held : (f, pageid) ∈ w.pins) : w.b.lruInsert cfg f =
    .ok { w.b.set f { w.b.pages f with pinCount := (w.b.pages f).pinCount - 1 } with
      lru := if (w.b.pages f).pinCount - 1 = 0 then w.b.lru ++ [f] else w.b.lru } := by
  obtain ⟨lt, _, resting⟩ := h.held_frame held
  have counted := h.pinCount_resting lt resting
  have positive := pinsOf_pos held
  rw [Pool.lruInsert, sequential]
  refine (if_neg (by omega)).trans ?_
  by_cases zero : (w.b.pages f).pinCount - 1 = 0
  · rw [if_pos zero]
    exact if_pos ⟨zero, fun both => Bool.noConfusion both.1⟩
  · rw [if_neg zero]
    exact if_neg fun both => zero both.1

theorem run_spec (sequential : cfg.sequential = false) (h : Inv cfg w) (op : Op T C)
    (allowed : Allowed cfg w op) : ∃ w', run cfg w op = .ok w' ∧ Inv cfg w' ∧ Kept w w' := by
  cases op with
  | load t pageid u =>
    obtain ⟨_, valid, available, _⟩ := allowed
    obtain ⟨b, a, ran, after⟩ := loadLoop_spec (t := t) (u := u) sequential h valid available
    exact ⟨w.after t pageid u b a, bind_ok ran rfl, after⟩
  | proceed t => exact proceed_spec sequential h allowed.1 allowed.2.1
  | getCachedPage pageid =>
    rw [run]
    cases found : w.b.cachedPages pageid with
    | none =>
      refine ⟨w, bind_ok (a := (w.b, none)) ?_ rfl, h, kept_of_ids fun _ => rfl⟩
      rw [bhGetCachedPage, found]
    | some f =>
      obtain ⟨lt, rfl⟩ := h.carried pageid f found
      cases pending : (w.b.pages f).pending with
      | true =>
        refine ⟨w, bind_ok (a := (w.b, none)) ?_ rfl, h, kept_of_ids fun _ => rfl⟩
        rw [bhGetCachedPage, found]
        exact if_pos pending
      | false =>
        refine ⟨_, bind_ok (a := (w.b.pin f, some f)) ?_ rfl, h.pin lt pending,
          kept_of_ids (pin_id w.b f)⟩
        rw [bhGetCachedPage, found]
        refine (if_neg (by rw [pending]; exact nofun)).trans ?_
        refine bind_ok (lruRemove_ok h lt) (if_neg ?_)
        rw [not_not, pin_id]
  | release f pageid =>
    refine ⟨_, bind_ok (release_ok sequential h allowed) rfl, h.unpin allowed rfl,
      kept_of_ids ?_⟩
    exact set_id w.b f { w.b.pages f with pinCount := (w.b.pages f).pinCount - 1 } rfl
  | write f pageid v =>
    refine ⟨_, rfl, h.write allowed v, kept_of_ids ?_⟩
    exact set_id w.b f { w.b.pages f with dirty := true, contents := v } rfl
  | writeBack page =>
    rw [run]
    cases found : w.b.cachedPages page with
    | none =>
      refine ⟨w, bind_ok (a := (w.b, .enoent)) ?_ rfl, h, kept_of_ids fun _ => rfl⟩
      rw [bhTryToWriteBackPage, found]
    | some f =>
      obtain ⟨lt, rfl⟩ := h.carried page f found
      rw [bhTryToWriteBackPage, found]
      by_cases used : (w.b.pages f).pending = true ∨ (w.b.pages f).pinCount ≠ 0
      · refine ⟨w, bind_ok (a := (w.b, .ebusy)) ?_ rfl, h, kept_of_ids fun _ => rfl⟩
        exact (if_neg (not_not.mpr rfl)).trans (if_pos used)
      · have resting := Bool.eq_false_iff.mpr fun pending => used (.inl pending)
        refine ⟨_, bind_ok (a := (w.b.phWrite f, .written)) ?_ rfl, h.writeBack lt resting,
          kept_of_ids fun g => ?_⟩
        · exact (if_neg (not_not.mpr rfl)).trans (if_neg used)
        · show ((w.b.phWrite f).pages g).id = _
          rw [Pool.phWrite]
          split
          · exact set_id w.b f { w.b.pages f with dirty := false } rfl g
          · rfl

omit [DecidableEq T] in
theorem init_inv (cfg : Config C) (clean : ∀ f, (pages f).dirty = false) (file : Int → C) :
    Inv cfg (.init pages file : World T C) :=
  ⟨Nat.zero_le _, fun f _ => clean f, nofun, nofun, nofun, List.nodup_nil, nofun, fun _ => trivial,
    nofun, fun _ _ _ known => some.inj known⟩

/-- No two frames carry the same page, and the hash table leads to the frame that carries a page.
Frames that loads have returned carry the page that was asked for, with its last contents. -/
structure Coherent (w : World T C) : Prop where
  ids : ∀ f < w.b.pageCount, ∀ g < w.b.pageCount, (w.b.pages f).id ≠ -1 →
    (w.b.pages f).id = (w.b.pages g).id → f = g
  unused : ∀ f < w.b.pageCount, w.b.cachedPages (w.b.pages f).id = some f ∨ (w.b.pages f).id = -1
  maps : ∀ pageid f, w.b.cachedPages pageid = some f → f < w.b.pageCount ∧ (w.b.pages f).id = pageid
  held : ∀ p ∈ w.pins, (w.b.pages p.1).id = p.2
  seen : ∀ p ∈ w.pins, ∀ v, w.last p.2 = some v → (w.b.pages p.1).contents = v

omit [DecidableEq T] in
theorem Inv.coherent (h : Inv cfg w) : Coherent w := by
  refine ⟨fun f lt g lt' _ same => h.same_frame lt lt' same, fun f lt => .inl (h.frames f lt).cached,
    h.carried, fun p mem => (h.pins p mem).2.1, fun p mem v known => ?_⟩
  obtain ⟨lt, same, resting⟩ := h.pins p mem
  exact (h.frames p.1 lt).contents resting v (same.symm ▸ known)

/-- Unless writes are hinted to be sequential, the cache is coherent whenever nobody has the mutex,
no assertion fails, and only frames that nobody uses are evicted. -/
theorem buffer_hash_coherent (cfg : Config C) (sequential : cfg.sequential = false)
    {pages : Nat → Page C} (clean : ∀ f, (pages f).dirty = false) (file : Int → C) {w : World T C}
    (reached : Runs.Reached (run cfg) (Allowed cfg) (.init pages file) w) :
    Coherent w ∧ ∀ op, Allowed cfg w op → ∃ w', run cfg w op = .ok w' ∧ Kept w w' := by
  have inv : Inv cfg w := by
    refine Runs.Reached.invariant (init_inv cfg clean file) (fun s op after _ inv allowed ran => ?_)
      reached
    obtain ⟨w', ran', inv', _⟩ := run_spec sequential inv op allowed
    cases ran.symm.trans ran'
    exact inv'
  refine ⟨inv.coherent, fun op allowed => ?_⟩
  obtain ⟨w', ran, _, kept⟩ := run_spec sequential inv op allowed
  exact ⟨w', ran, kept⟩

instance (cfg : Config C) (b : Pool C) : Decidable (Available cfg b) :=
  inferInstanceAs (Decidable (_ ∨ _))

instance (b : Pool C) : Decidable (Countable b) := inferInstanceAs (Decidable (∀ f < _, _))

instance (cfg : Config C) (w : World T C) : (op : Op T C) → Decidable (Allowed cfg w op)
  | .load _ _ _ => inferInstanceAs (Decidable (_ ∧ _ ∧ _ ∧ _))
  | .proceed _ => inferInstanceAs (Decidable (_ ∧ _ ∧ _))
  | .getCachedPage _ => inferInstanceAs (Decidable (Countable _))
  | .release _ _ => inferInstanceAs (Decidable (_ ∈ _))
  | .write _ _ _ => inferInstanceAs (Decidable (_ ∈ _))
  | .writeBack _ => inferInstanceAs (Decidable True)

def threeFrames (sequential : Bool) : Config Nat := ⟨3, sequential, id⟩

def zeroPages : Nat → Page Nat := fun _ => ⟨0, false, 0, false, 0⟩

/-- Page 5 is loaded, written and released while a second thread waits for it. Its frame is used
for page 7 when that thread goes on. -/
def recycled : List (Op Nat Nat) :=
  [.load 0 5 false, .load 1 5 false, .proceed 0, .proceed 0, .write 0 5 55, .release 0 5,
    .load 0 6 false, .proceed 0, .proceed 0, .release 1 6, .load 0 8 false, .proceed 0, .proceed 0,
    .release 2 8, .load 2 7 false, .writeBack 5, .proceed 2, .proceed 2, .proceed 2, .proceed 1,
    .proceed 1, .proceed 1]

/-- The second thread has what the first one wrote. -/
theorem buffer_hash_coherent_recycled :
    ∃ w : World Nat Nat, w.pins = [(1, 5), (0, 7)] ∧ (w.b.pages 1).contents = 55 ∧
      Coherent w ∧ ∀ op, Allowed (threeFrames false) w op →
        ∃ w', run (threeFrames false) w op = .ok w' ∧ Kept w w' := by
  obtain ⟨w, ran, pins, contents⟩ : ∃ w,
      recycled.foldlM (Runs.tryStep (run (threeFrames false)) (Allowed (threeFrames false)))
        (.init zeroPages Int.toNat) = some w ∧
      w.pins = [(1, 5), (0, 7)] ∧ (w.b.pages 1).contents = 55 := by
    decide +kernel
  exact ⟨w, pins, contents, buffer_hash_coherent (threeFrames false) rfl (fun _ => rfl) Int.toNat
    (Runs.Reached.start.steps ran)⟩

/-- Page 5 is loaded, written, released and written back. -/
def rewritten : List (Op Nat Nat) :=
  [.load 0 5 false, .proceed 0, .proceed 0, .write 0 5 55, .release 0 5, .writeBack 5]

/-- If writes are hinted to be sequential, a dirty page is not put into the list of the policy when
it is released, and neither when it has been written back. The next load of it finds a clean page
that is in no list. -/
theorem load_after_sequential_write_back_fails :
    ∃ w : World Nat Nat, Runs.Reached (run (threeFrames true)) (Allowed (threeFrames true))
        (.init zeroPages Int.toNat) w ∧
      Allowed (threeFrames true) w (.load 0 5 false) ∧
        run (threeFrames true) w (.load 0 5 false) = .error .fails :=
  Runs.Reached.of_steps rewritten (by decide +kernel)

end Stasis.BufferHash
