import Mathlib.Data.List.Nodup
import Stasis.BufferManager.BufferHash
import Stasis.Library.Fallible

/-!
What holds of the buffer manager whenever nobody has the mutex.

Each frame is in the hash table under the page that it carries, and in the list of the policy
unless it is pinned. The pins are those of frames that were returned, and one of the thread that
reads into the frame. Each change of a single frame is looked at by itself: it keeps what holds
of that frame, and the other frames do not notice it.
-/
namespace Stasis.BufferHash
open Function List Option

variable {T C : Type}

/-- How often a frame was returned and not released. -/
def pinsOf (pins : List (Nat × Int)) (f : Nat) : Nat := pins.countP fun p => p.1 = f

section Pins
variable {id : Int}

theorem pinsOf_cons_self : pinsOf ((f, id) :: pins) f = pinsOf pins f + 1 :=
  countP_cons_of_pos (decide_eq_true rfl)

theorem pinsOf_cons_ne (ne : g ≠ f) : pinsOf ((f, id) :: pins) g = pinsOf pins g :=
  countP_cons_of_neg (by simpa using ne.symm)

theorem pinsOf_pos (mem : (f, id) ∈ pins) : 0 < pinsOf pins f :=
  countP_pos_iff.mpr ⟨_, mem, decide_eq_true rfl⟩

theorem pinsOf_eq_zero (none : ∀ p ∈ pins, p.1 ≠ f) : pinsOf pins f = 0 :=
  countP_eq_zero.mpr fun p mem => by simpa using none p mem

theorem pinsOf_erase (mem : (f, id) ∈ pins) (g : Nat) :
    pinsOf ((f, id) :: pins.erase (f, id)) g = pinsOf pins g :=
  ((perm_cons_erase mem).countP_eq _).symm

theorem pinsOf_erase_self (mem : (f, id) ∈ pins) :
    pinsOf (pins.erase (f, id)) f + 1 = pinsOf pins f :=
  pinsOf_cons_self.symm.trans (pinsOf_erase mem f)

theorem pinsOf_erase_ne (mem : (f, id) ∈ pins) (ne : g ≠ f) :
    pinsOf (pins.erase (f, id)) g = pinsOf pins g :=
  (pinsOf_cons_ne ne).symm.trans (pinsOf_erase mem g)

end Pins

/-- A frame that was taken from the pool. -/
structure Good (w : World T C) (f : Nat) : Prop where
  valid : (w.b.pages f).id ≠ -1
  cached : w.b.cachedPages (w.b.pages f).id = some f
  lru : f ∈ w.b.lru ↔ (w.b.pages f).pinCount = 0
  pinned : (w.b.pages f).pinCount = pinsOf w.pins f + if (w.b.pages f).pending then 1 else 0
  pending : (w.b.pages f).pending = true → (w.b.pages f).dirty = false
  contents : (w.b.pages f).pending = false → ∀ v, w.last (w.b.pages f).id = some v →
    (w.b.pages f).contents = v
  clean : (w.b.pages f).dirty = false → ∀ v, w.last (w.b.pages f).id = some v →
    w.b.file (w.b.pages f).id = v

variable {f g : Nat} {w w' : World T C} {cfg : Config C} {pc : Pc}

/-- What `Good` says of a frame, of the page that the frame gets. -/
structure Suits (w : World T C) (f : Nat) (p : Page C) : Prop where
  valid : p.id ≠ -1
  cached : w.b.cachedPages p.id = some f
  lru : f ∈ w.b.lru ↔ p.pinCount = 0
  pinned : p.pinCount = pinsOf w.pins f + if p.pending then 1 else 0
  pending : p.pending = true → p.dirty = false
  contents : p.pending = false → ∀ v, w.last p.id = some v → p.contents = v
  clean : p.dirty = false → ∀ v, w.last p.id = some v → w.b.file p.id = v

theorem Suits.good (h : Suits w f p) (page : w.b.pages f = p) : Good w f := by
  subst page
  exact ⟨h.valid, h.cached, h.lru, h.pinned, h.pending, h.contents, h.clean⟩

theorem Good.congr (h : Good w f) (page : w'.b.pages f = w.b.pages f)
    (cached : w'.b.cachedPages (w.b.pages f).id = some f) (lru : f ∈ w'.b.lru ↔ f ∈ w.b.lru)
    (pins : pinsOf w'.pins f = pinsOf w.pins f)
    (last : w'.last (w.b.pages f).id = w.last (w.b.pages f).id)
    (file : w'.b.file (w.b.pages f).id = w.b.file (w.b.pages f).id) : Good w' f := by
  refine Suits.good ⟨h.valid, cached, lru.trans h.lru, ?_, h.pending, ?_, ?_⟩ page
  · rw [pins]
    exact h.pinned
  · rw [last]
    exact h.contents
  · rw [last, file]
    exact h.clean

/-- The frame that a thread reads into. -/
def Pc.frame : Pc → Option Nat
  | .reading _ f => some f
  | .loaded _ f => some f
  | _ => none

def Pc.Good (cfg : Config C) (w : World T C) : Pc → Prop
  | .idle => True
  | .waiting pageid _ f => f < w.b.pageCount ∧ pageid ≠ -1
  | .flushing pageid _ => cfg.size ≤ w.b.pageCount ∧ pageid ≠ -1
  | .reading pageid f => f < w.b.pageCount ∧ (w.b.pages f).pending = true ∧ (w.b.pages f).id = pageid
  | .loaded pageid f => (f < w.b.pageCount ∧ (w.b.pages f).pending = true ∧
      (w.b.pages f).id = pageid) ∧ ∀ v, w.last pageid = some v → (w.b.pages f).contents = v

structure Inv (cfg : Config C) (w : World T C) : Prop where
  count : w.b.pageCount ≤ cfg.size
  unused : ∀ f, w.b.pageCount ≤ f → (w.b.pages f).dirty = false
  frames : ∀ f < w.b.pageCount, Good w f
  carried : ∀ id f, w.b.cachedPages id = some f → f < w.b.pageCount ∧ (w.b.pages f).id = id
  inside : ∀ f ∈ w.b.lru, f < w.b.pageCount
  nodup : w.b.lru.Nodup
  pins : ∀ p ∈ w.pins, p.1 < w.b.pageCount ∧ (w.b.pages p.1).id = p.2 ∧
    (w.b.pages p.1).pending = false
  threads : ∀ t, (w.pcs t).Good cfg w
  once : ∀ t t' f, (w.pcs t).frame = some f → (w.pcs t').frame = some f → t = t'
  uncached : ∀ id, w.b.cachedPages id = none → ∀ v, w.last id = some v → w.b.file id = v

theorem Pc.Good.congr (h : pc.Good cfg w) (more : w.b.pageCount ≤ w'.b.pageCount)
    (page : ∀ f, pc.frame = some f → w'.b.pages f = w.b.pages f)
    (last : ∀ f, pc.frame = some f → w'.last (w.b.pages f).id = w.last (w.b.pages f).id) :
    pc.Good cfg w' := by
  cases pc with
  | idle => trivial
  | waiting pageid u f => exact ⟨lt_of_lt_of_le h.1 more, h.2⟩
  | flushing pageid u => exact ⟨le_trans h.1 more, h.2⟩
  | reading pageid f =>
    rw [Pc.Good, page f rfl]
    exact ⟨lt_of_lt_of_le h.1 more, h.2⟩
  | loaded pageid f =>
    obtain ⟨⟨lt, pending, id⟩, same⟩ := h
    have last := last f rfl
    rw [id] at last
    rw [Pc.Good, page f rfl, last]
    exact ⟨⟨lt_of_lt_of_le lt more, pending, id⟩, same⟩

theorem Pc.Good.reads (h : pc.Good cfg w) (reads : pc.frame = some f) :
    f < w.b.pageCount ∧ (w.b.pages f).pending = true := by
  cases pc with
  | idle => cases reads
  | waiting pageid u g => cases reads
  | flushing pageid u => cases reads
  | reading pageid g =>
    cases reads
    exact ⟨h.1, h.2.1⟩
  | loaded pageid g =>
    cases reads
    exact ⟨h.1.1, h.1.2.1⟩

section
variable (b : Pool C)
include b

theorem set_self (f : Nat) (p : Page C) : (b.set f p).pages f = p :=
  update_self ..

theorem set_of_ne (p : Page C) (ne : g ≠ f) : (b.set f p).pages g = b.pages g :=
  update_of_ne ne _ _

/-- A frame gets another pin. -/
def Pool.pin (f : Nat) : Pool C :=
  { b.set f { b.pages f with pinCount := (b.pages f).pinCount + 1 } with lru := b.lru.erase f }

theorem pin_self (f : Nat) :
    (b.pin f).pages f = { b.pages f with pinCount := (b.pages f).pinCount + 1 } :=
  set_self ..

theorem pin_of_ne (ne : g ≠ f) : (b.pin f).pages g = b.pages g :=
  set_of_ne _ _ ne

theorem pin_id (f g : Nat) : ((b.pin f).pages g).id = (b.pages g).id := by
  by_cases eq : g = f
  · rw [eq, pin_self]
  · rw [pin_of_ne _ eq]

end

namespace Inv
variable {id : Int}

section
variable (h : Inv cfg w)
include h

theorem same_frame (lt : f < w.b.pageCount) (lt' : g < w.b.pageCount)
    (same : (w.b.pages f).id = (w.b.pages g).id) : f = g := by
  have found := (h.frames f lt).cached
  rw [same, (h.frames g lt').cached] at found
  exact (some.inj found).symm

theorem pinsOf_pending (pending : (w.b.pages f).pending = true) : pinsOf w.pins f = 0 := by
  refine pinsOf_eq_zero fun p mem eq => ?_
  have free := (h.pins p mem).2.2
  rw [eq, pending] at free
  cases free

theorem held_frame (held : (f, id) ∈ w.pins) :
    f < w.b.pageCount ∧ (w.b.pages f).id = id ∧ (w.b.pages f).pending = false :=
  h.pins _ held

theorem idle_frame (resting : (w.b.pages f).pending = false) (t : T) :
    (w.pcs t).frame ≠ some f := by
  intro reads
  rw [((h.threads t).reads reads).2] at resting
  cases resting

theorem touch (lt : f < w.b.pageCount) (count : w'.b.pageCount = w.b.pageCount)
    (cached : w'.b.cachedPages = w.b.cachedPages) (here : w'.b.pages f = page)
    (pages : ∀ g, g ≠ f → w'.b.pages g = w.b.pages g)
    (lru : ∀ g, g ≠ f → (g ∈ w'.b.lru ↔ g ∈ w.b.lru)) (nodup : w'.b.lru.Nodup)
    (pinned : ∀ g, g ≠ f → pinsOf w'.pins g = pinsOf w.pins g)
    (pins : ∀ p ∈ w'.pins, p ∈ w.pins ∨ p = (f, (w.b.pages f).id))
    (held : ∀ p ∈ w'.pins, p.1 = f → page.pending = false) (same : page.id = (w.b.pages f).id)
    (last : ∀ i, i ≠ (w.b.pages f).id → w'.last i = w.last i)
    (file : ∀ i, i ≠ (w.b.pages f).id → w'.b.file i = w.b.file i) (suits : Suits w' f page)
    (threads : ∀ t, (w'.pcs t).Good cfg w')
    (once : ∀ t t' g, (w'.pcs t).frame = some g → (w'.pcs t').frame = some g → t = t') :
    Inv cfg w' := by
  subst here
  have ids : ∀ g, (w'.b.pages g).id = (w.b.pages g).id := by
    intro g
    by_cases eq : g = f
    · rw [eq, same]
    · rw [pages g eq]
  refine ⟨?_, fun g le => ?_, fun g lt' => ?_, fun i g found => ?_, fun g mem => ?_, nodup,
    fun p mem => ?_, threads, once, fun i none v known => ?_⟩
  · rw [count]
    exact h.count
  · rw [count] at le
    rw [pages g (by omega)]
    exact h.unused g le
  · rw [count] at lt'
    by_cases eq : g = f
    · rw [eq]
      exact suits.good rfl
    · have other : (w.b.pages g).id ≠ (w.b.pages f).id := fun ids => eq (h.same_frame lt' lt ids)
      refine (h.frames g lt').congr (pages g eq) ?_ (lru g eq) (pinned g eq) (last _ other)
        (file _ other)
      rw [cached]
      exact (h.frames g lt').cached
  · rw [cached] at found
    rw [count, ids]
    exact h.carried i g found
  · rw [count]
    by_cases eq : g = f
    · rw [eq]
      exact lt
    · exact h.inside g ((lru g eq).mp mem)
  · rw [count, ids]
    by_cases eq : p.1 = f
    · rcases pins p mem with old | new
      · exact ⟨(h.pins p old).1, (h.pins p old).2.1, eq ▸ held p mem eq⟩
      · rw [new]
        exact ⟨lt, rfl, held p mem eq⟩
    · rcases pins p mem with old | new
      · rw [pages _ eq]
        exact h.pins p old
      · exact absurd (congrArg Prod.fst new) eq
  · rw [cached] at none
    have other : i ≠ (w.b.pages f).id := by
      intro eq
      rw [eq, (h.frames f lt).cached] at none
      cases none
    rw [last i other] at known
    rw [file i other]
    exact h.uncached i none v known

theorem threads_resting (resting : (w.b.pages f).pending = false) (lt : f < w.b.pageCount)
    (more : w.b.pageCount ≤ w'.b.pageCount) (pages : ∀ g, g ≠ f → w'.b.pages g = w.b.pages g)
    (last : ∀ i, i ≠ (w.b.pages f).id → w'.last i = w.last i) (t : T) : (w.pcs t).Good cfg w' := by
  refine (h.threads t).congr more (fun g reads => ?_) fun g reads => ?_
  · exact pages g fun eq => h.idle_frame resting t (eq ▸ reads)
  · refine last _ fun ids => ?_
    have there := ((h.threads t).reads reads).1
    exact h.idle_frame resting t (h.same_frame there lt ids ▸ reads)

theorem pinCount_resting (lt : f < w.b.pageCount) (resting : (w.b.pages f).pending = false) :
    (w.b.pages f).pinCount = pinsOf w.pins f := by
  have pinned := (h.frames f lt).pinned
  rw [resting] at pinned
  exact pinned.trans (Int.add_zero _)

theorem pin (lt : f < w.b.pageCount) (resting : (w.b.pages f).pending = false) :
    Inv cfg { w with b := w.b.pin f, pins := (f, (w.b.pages f).id) :: w.pins } := by
  have good := h.frames f lt
  have counted := h.pinCount_resting lt resting
  refine h.touch lt rfl rfl (pin_self ..) (fun g ne => pin_of_ne _ ne)
    (fun g ne => mem_erase_of_ne ne) (h.nodup.erase f) (fun g ne => pinsOf_cons_ne ne)
    (fun p mem => ?_) (fun _ _ _ => resting) rfl (fun _ _ => rfl) (fun _ _ => rfl)
    ⟨good.valid, good.cached, ?_, ?_, good.pending, good.contents, good.clean⟩
    (h.threads_resting resting lt le_rfl (fun g ne => pin_of_ne _ ne) fun _ _ => rfl) h.once
  · cases mem with
    | head => exact .inr rfl
    | tail _ old => exact .inl old
  · refine iff_of_false h.nodup.not_mem_erase ?_
    dsimp only
    omega
  · rw [counted, resting, pinsOf_cons_self]
    rfl

theorem unpin (held : (f, id) ∈ w.pins)
    (pushed : lru = if (w.b.pages f).pinCount - 1 = 0 then w.b.lru ++ [f] else w.b.lru) :
    Inv cfg { w with
      b := { w.b.set f { w.b.pages f with pinCount := (w.b.pages f).pinCount - 1 } with lru := lru }
      pins := w.pins.erase (f, id) } := by
  obtain ⟨lt, _, resting⟩ := h.held_frame held
  have good := h.frames f lt
  have counted := h.pinCount_resting lt resting
  have positive := pinsOf_pos held
  have out : f ∉ w.b.lru := fun mem => by have := good.lru.mp mem; omega
  refine h.touch lt rfl rfl (set_self ..) (fun g ne => set_of_ne _ _ ne) (fun g ne => ?_) ?_
    (fun g ne => pinsOf_erase_ne held ne) (fun p mem => .inl (mem_of_mem_erase mem))
    (fun _ _ _ => resting) rfl (fun _ _ => rfl) (fun _ _ => rfl)
    ⟨good.valid, good.cached, ?_, ?_, good.pending, good.contents, good.clean⟩
    (h.threads_resting resting lt le_rfl (fun g ne => set_of_ne _ _ ne) fun _ _ => rfl) h.once
  · show g ∈ lru ↔ _
    rw [pushed]
    split
    · rw [mem_append, mem_singleton, or_iff_left ne]
    · rfl
  · show lru.Nodup
    rw [pushed]
    split
    · exact nodup_append.mpr ⟨h.nodup, nodup_singleton f, fun a mem b mem' eq =>
        out (mem_singleton.mp mem' ▸ eq ▸ mem)⟩
    · exact h.nodup
  · show f ∈ lru ↔ _
    rw [pushed]
    split
    · next zero => exact iff_of_true (mem_append_right _ (mem_singleton.mpr rfl)) zero
    · next more => exact iff_of_false out more
  · have fewer := pinsOf_erase_self held
    rw [counted, resting]
    simp only [Bool.false_eq_true, if_false]
    omega

theorem write (held : (f, id) ∈ w.pins) (v : C) :
    Inv cfg { w with
      b := w.b.set f { w.b.pages f with dirty := true, contents := v }
      last := update w.last id (some v) } := by
  obtain ⟨lt, same, resting⟩ := h.held_frame held
  subst same
  have good := h.frames f lt
  refine h.touch lt rfl rfl (set_self ..) (fun g ne => set_of_ne _ _ ne) (fun g ne => .rfl) h.nodup
    (fun g ne => rfl) (fun p mem => .inl mem) (fun _ _ _ => resting) rfl
    (fun i ne => update_of_ne ne _ _) (fun _ _ => rfl)
    ⟨good.valid, good.cached, good.lru, good.pinned, fun pending => ?_, fun _ v' known => ?_, nofun⟩
    (h.threads_resting resting lt le_rfl (fun g ne => set_of_ne _ _ ne)
      fun i ne => update_of_ne ne _ _) h.once
  · exact absurd pending (Bool.not_eq_true _ ▸ resting)
  · dsimp only at known
    rw [update_self] at known
    exact some.inj known

theorem writeBack (lt : f < w.b.pageCount) (resting : (w.b.pages f).pending = false) :
    Inv cfg { w with b := w.b.phWrite f } := by
  have good := h.frames f lt
  rw [Pool.phWrite]
  split
  · refine h.touch lt rfl rfl (set_self ..) (fun g ne => set_of_ne _ _ ne) (fun g ne => .rfl) h.nodup
      (fun g ne => rfl) (fun p mem => .inl mem) (fun _ _ _ => resting) rfl (fun _ _ => rfl)
      (fun i ne => update_of_ne ne _ _)
      ⟨good.valid, good.cached, good.lru, good.pinned, fun _ => rfl, good.contents, ?_⟩
      (h.threads_resting resting lt le_rfl (fun g ne => set_of_ne _ _ ne) fun _ _ => rfl)
      h.once
    intro _ v known
    exact (update_self ..).trans (good.contents resting v known)
  · exact h

theorem rotate (mem : f ∈ w.b.lru) :
    Inv cfg { w with b := { w.b with lru := w.b.lru.erase f ++ [f] } } := by
  have lt := h.inside f mem
  have good := h.frames f lt
  have zero := good.lru.mp mem
  refine h.touch lt rfl rfl rfl (fun _ _ => rfl) (fun g ne => ?_) ?_ (fun _ _ => rfl)
    (fun _ mem => .inl mem) (fun p held eq => eq ▸ (h.pins p held).2.2) rfl (fun _ _ => rfl)
    (fun _ _ => rfl)
    ⟨good.valid, good.cached, ?_, good.pinned, good.pending, good.contents, good.clean⟩
    (fun t => (h.threads t).congr le_rfl (fun _ _ => rfl) fun _ _ => rfl) h.once
  · rw [mem_append, mem_singleton, or_iff_left ne, mem_erase_of_ne ne]
  · exact nodup_append.mpr ⟨h.nodup.erase f, nodup_singleton f, fun a mem b mem' eq =>
      h.nodup.not_mem_erase (mem_singleton.mp mem' ▸ eq ▸ mem)⟩
  · exact iff_of_true (mem_append_right _ (mem_singleton.mpr rfl)) zero

end

variable [DecidableEq T] (h : Inv cfg w)
include h

theorem once_reader (moved : pcs = update w.pcs t pc)
    (same : ∀ g, pc.frame = some g → (w.pcs t).frame = some g) (t1 t2 : T) (g : Nat)
    (reads1 : (pcs t1).frame = some g) (reads2 : (pcs t2).frame = some g) : t1 = t2 := by
  subst moved
  have old : ∀ t', (update w.pcs t pc t').frame = some g → (w.pcs t').frame = some g :=
    (forall_update_iff w.pcs fun t' pc => pc.frame = some g → (w.pcs t').frame = some g).mpr
      ⟨same g, fun _ _ => id⟩
  exact h.once t1 t2 g (old t1 reads1) (old t2 reads2)

theorem once_start (starts : pc.frame = some f) (unread : ∀ t', (w.pcs t').frame ≠ some f)
    (t1 t2 : T) (g : Nat) (reads1 : (update w.pcs t pc t1).frame = some g)
    (reads2 : (update w.pcs t pc t2).frame = some g) : t1 = t2 := by
  by_cases eq1 : t1 = t
  · by_cases eq2 : t2 = t
    · rw [eq1, eq2]
    · rw [eq1, update_self, starts] at reads1
      rw [update_of_ne eq2, ← reads1] at reads2
      exact absurd reads2 (unread t2)
  · rw [update_of_ne eq1] at reads1
    by_cases eq2 : t2 = t
    · rw [eq2, update_self, starts] at reads2
      rw [← reads2] at reads1
      exact absurd reads1 (unread t1)
    · rw [update_of_ne eq2] at reads2
      exact h.once t1 t2 g reads1 reads2

theorem park (none : pc.frame = none) (good : pc.Good cfg w) : Inv cfg (w.setPc t pc) := by
  refine ⟨h.count, h.unused, fun g lt => ?_, h.carried, h.inside, h.nodup, h.pins, ?_,
    h.once_reader rfl fun g reads => ?_, h.uncached⟩
  · have frame := h.frames g lt
    exact frame.congr rfl frame.cached .rfl rfl rfl rfl
  · exact (forall_update_iff w.pcs fun _ pc => pc.Good cfg (w.setPc t pc)).mpr
      ⟨good.congr le_rfl (fun _ _ => rfl) fun _ _ => rfl,
        fun t' _ => (h.threads t').congr le_rfl (fun _ _ => rfl) fun _ _ => rfl⟩
  · rw [none] at reads
    cases reads

theorem threads_reader (reads : (w.pcs t).frame = some f) (pcs : w'.pcs = update w.pcs t pc)
    (count : w'.b.pageCount = w.b.pageCount) (pages : ∀ g, g ≠ f → w'.b.pages g = w.b.pages g)
    (last : w'.last = w.last) (good : pc.Good cfg w') (t' : T) : (w'.pcs t').Good cfg w' := by
  rw [pcs]
  by_cases eq : t' = t
  · rw [eq, update_self]
    exact good
  · rw [update_of_ne eq]
    refine (h.threads t').congr (Nat.le_of_eq count.symm) (fun g reads' => pages g fun same => ?_)
      fun _ _ => by rw [last]
    exact eq (h.once t' t f (same ▸ reads') reads)

theorem read (reading : w.pcs t = .reading id f) :
    Inv cfg { w.setPc t (.loaded id f) with
      b := w.b.set f { w.b.pages f with contents := w.b.file (w.b.pages f).id } } := by
  have pc := h.threads t
  rw [reading] at pc
  obtain ⟨lt, pending, same⟩ := pc
  have good := h.frames f lt
  have reads : (w.pcs t).frame = some f := by rw [reading]; rfl
  refine h.touch lt rfl rfl (set_self ..) (fun g ne => set_of_ne _ _ ne) (fun _ _ => .rfl) h.nodup
    (fun _ _ => rfl) (fun _ mem => .inl mem) (fun p held eq => ?_) rfl (fun _ _ => rfl)
    (fun _ _ => rfl)
    ⟨good.valid, good.cached, good.lru, good.pinned, good.pending, fun resting => ?_, good.clean⟩
    (h.threads_reader reads rfl rfl (fun g ne => set_of_ne _ _ ne) rfl ?_)
    (h.once_reader rfl fun g reads' => reads' ▸ reads)
  · have free := (h.pins p held).2.2
    rw [eq, pending] at free
    cases free
  · exact absurd pending (Bool.not_eq_true _ ▸ resting)
  · rw [Pc.Good, set_self]
    refine ⟨⟨lt, pending, same⟩, fun v known => ?_⟩
    subst same
    exact good.clean (good.pending pending) v known

theorem finish (loaded : w.pcs t = .loaded id f) :
    Inv cfg { w.setPc t .idle with
      b := w.b.set f { w.b.pages f with pending := false }
      pins := (f, id) :: w.pins } := by
  have pc := h.threads t
  rw [loaded] at pc
  obtain ⟨⟨lt, pending, same⟩, contents⟩ := pc
  have good := h.frames f lt
  have reads : (w.pcs t).frame = some f := by rw [loaded]; rfl
  have pinned := good.pinned
  rw [h.pinsOf_pending pending, pending] at pinned
  refine h.touch lt rfl rfl (set_self ..) (fun g ne => set_of_ne _ _ ne) (fun _ _ => .rfl) h.nodup
    (fun g ne => pinsOf_cons_ne ne) (fun p mem => ?_) (fun _ _ _ => rfl) rfl (fun _ _ => rfl)
    (fun _ _ => rfl) ⟨good.valid, good.cached, good.lru, ?_, nofun, fun _ => ?_, good.clean⟩
    (h.threads_reader reads rfl rfl (fun g ne => set_of_ne _ _ ne) rfl trivial)
    (h.once_reader rfl nofun)
  · cases mem with
    | head => exact .inr (by rw [same])
    | tail _ old => exact .inl old
  · rw [pinsOf_cons_self, h.pinsOf_pending pending, pinned]
    rfl
  · rw [same]
    exact contents

end Inv

/-- A frame that can be used for another page: one that was never used, or one that is not in
use. -/
def Spare (cfg : Config C) (b : Pool C) (f : Nat) : Prop :=
  f = b.pageCount ∧ f < cfg.size ∨
    f < b.pageCount ∧ (b.pages f).pinCount = 0 ∧ (b.pages f).pending = false ∧
      (b.pages f).dirty = false

/-- The pool after a page is put into a spare frame. -/
structure Installed (b b' : Pool C) (pageid : Int) (f : Nat) : Prop where
  count : b'.pageCount = max b.pageCount (f + 1)
  cached : ∀ i, b'.cachedPages i = if i = pageid then some f
    else if b.cachedPages i = some f then none else b.cachedPages i
  pages : ∀ g, g ≠ f → b'.pages g = b.pages g
  id : (b'.pages f).id = pageid
  pinCount : (b'.pages f).pinCount = 1
  dirty : (b'.pages f).dirty = false
  lru : b'.lru = b.lru.erase f
  file : b'.file = b.file

namespace Inv
section
variable (h : Inv cfg w) (spare : Spare cfg w.b f)
include h spare

theorem spare_unread (t : T) : (w.pcs t).frame ≠ some f := by
  rcases spare with ⟨eq, _⟩ | ⟨_, _, resting, _⟩
  · intro reads
    have lt := ((h.threads t).reads reads).1
    omega
  · exact h.idle_frame resting t

theorem spare_unpinned : ∀ p ∈ w.pins, p.1 ≠ f := by
  intro p mem eq
  rcases spare with ⟨fresh, _⟩ | ⟨lt, zero, resting, _⟩
  · have lt := (h.pins p mem).1
    omega
  · have counted := h.pinCount_resting lt resting
    have positive : 0 < pinsOf w.pins f := pinsOf_pos (show (f, p.2) ∈ w.pins from eq ▸ mem)
    omega

theorem filed (only : ∀ g, w.b.cachedPages i = some g → g = f) (v : C) (known : w.last i = some v) :
    w.b.file i = v := by
  cases found : w.b.cachedPages i with
  | none => exact h.uncached i found v known
  | some g =>
    obtain ⟨lt, same⟩ := h.carried i g found
    have eq := only g found
    rcases spare with ⟨fresh, _⟩ | ⟨_, _, _, clean⟩
    · omega
    · subst eq same
      exact (h.frames g lt).clean clean v known

end

theorem other_page (h : Inv cfg w) (miss : ∀ g, w.b.cachedPages pageid = some g → g = f)
    (lt : g < w.b.pageCount) (ne : g ≠ f) : (w.b.pages g).id ≠ pageid := by
  intro eq
  exact ne (miss g (eq ▸ (h.frames g lt).cached))

section
variable (h : Inv cfg w) (spare : Spare cfg w.b f)
include h spare

theorem threads_install (miss : ∀ g, w.b.cachedPages pageid = some g → g = f)
    (installed : Installed w.b w'.b pageid f) (last : ∀ i, i ≠ pageid → w'.last i = w.last i)
    (t : T) : (w.pcs t).Good cfg w' := by
  have more : w.b.pageCount ≤ w'.b.pageCount := by
    rw [installed.count]
    exact Nat.le_max_left ..
  have unread : ∀ g, (w.pcs t).frame = some g → g ≠ f :=
    fun g reads eq => h.spare_unread spare t (eq ▸ reads)
  refine (h.threads t).congr more (fun g reads => installed.pages g (unread g reads)) fun g reads => ?_
  exact last _ (h.other_page miss ((h.threads t).reads reads).1 (unread g reads))

section
variable (valid : pageid ≠ -1) (miss : ∀ g, w.b.cachedPages pageid = some g → g = f)
  (installed : Installed w.b w'.b pageid f)
  (known : ∀ v, w'.last pageid = some v → w.last pageid = some v ∧ (w'.b.pages f).pending = true)
  (pins : (w'.b.pages f).pending = true ∧ w'.pins = w.pins ∨ (w'.b.pages f).pending = false ∧
    w'.pins = (f, pageid) :: w.pins)
include valid miss installed known pins

theorem good_install : Good w' f := by
  have unpinned := pinsOf_eq_zero (h.spare_unpinned spare)
  refine ⟨?_, ?_, ?_, ?_, fun _ => installed.dirty, ?_, ?_⟩
  · rw [installed.id]
    exact valid
  · rw [installed.id, installed.cached, if_pos rfl]
  · rw [installed.lru, installed.pinCount]
    exact iff_of_false h.nodup.not_mem_erase (by decide)
  · rw [installed.pinCount]
    rcases pins with ⟨pending, pins⟩ | ⟨pending, pins⟩
    · rw [pins, pending, unpinned]
      rfl
    · rw [pins, pending, pinsOf_cons_self, unpinned]
      rfl
  · intro resting v seen
    rw [installed.id] at seen
    rw [(known v seen).2] at resting
    cases resting
  · intro _ v seen
    rw [installed.id] at seen ⊢
    rw [installed.file]
    exact h.filed spare miss v (known v seen).1

theorem install (last : ∀ i, i ≠ pageid → w'.last i = w.last i)
    (threads : ∀ t, (w'.pcs t).Good cfg w')
    (once : ∀ t t' g, (w'.pcs t).frame = some g → (w'.pcs t').frame = some g → t = t') :
    Inv cfg w' := by
  have count := installed.count
  have limit := h.count
  have fits : w'.b.pageCount ≤ cfg.size ∧ f < w'.b.pageCount ∧
      ∀ g, g < w'.b.pageCount → g ≠ f → g < w.b.pageCount := by
    rcases spare with ⟨fresh, room⟩ | ⟨lt, _⟩
    · exact ⟨by omega, by omega, fun g _ _ => by omega⟩
    · exact ⟨by omega, by omega, fun g _ _ => by omega⟩
  refine ⟨fits.1, fun g le => ?_, fun g lt => ?_, fun i g found => ?_, fun g mem => ?_, ?_,
    fun p mem => ?_, threads, once, fun i none v seen => ?_⟩
  · rw [installed.pages g (by omega)]
    exact h.unused g (by omega)
  · by_cases eq : g = f
    · rw [eq]
      exact h.good_install spare valid miss installed known pins
    · have there := fits.2.2 g lt eq
      have other := h.other_page miss there eq
      have good := h.frames g there
      refine good.congr (installed.pages g eq) ?_ ?_ ?_ (last _ other) (by rw [installed.file])
      · rw [installed.cached, if_neg other, good.cached, if_neg fun same => eq (some.inj same)]
      · rw [installed.lru, mem_erase_of_ne eq]
      · rcases pins with ⟨_, pins⟩ | ⟨_, pins⟩
        · rw [pins]
        · rw [pins, pinsOf_cons_ne eq]
  · rw [installed.cached] at found
    split at found
    · next eq =>
      cases found
      exact ⟨fits.2.1, installed.id.trans eq.symm⟩
    · split at found
      · cases found
      · next ne =>
        obtain ⟨lt, same⟩ := h.carried i g found
        have eq : g ≠ f := fun eq => ne (eq ▸ found)
        rw [installed.pages g eq]
        exact ⟨by omega, same⟩
  · rw [installed.lru] at mem
    have lt := h.inside g (mem_of_mem_erase mem)
    omega
  · rw [installed.lru]
    exact h.nodup.erase f
  · have old : p ∈ w.pins → p.1 < w'.b.pageCount ∧ (w'.b.pages p.1).id = p.2 ∧
        (w'.b.pages p.1).pending = false := by
      intro mem
      obtain ⟨lt, held⟩ := h.pins p mem
      rw [installed.pages _ (h.spare_unpinned spare p mem)]
      exact ⟨by omega, held⟩
    rcases pins with ⟨_, pins⟩ | ⟨pending, pins⟩
    · exact old (pins ▸ mem)
    · rw [pins] at mem
      cases mem with
      | head => exact ⟨fits.2.1, installed.id, pending⟩
      | tail _ mem => exact old mem
  · rw [installed.cached] at none
    split at none
    · cases none
    · next other =>
      rw [last i other] at seen
      rw [installed.file]
      split at none
      · next mine => exact h.filed spare (fun g found => some.inj (found.symm.trans mine)) v seen
      · exact h.uncached i none v seen

end

end

end Inv

end Stasis.BufferHash
