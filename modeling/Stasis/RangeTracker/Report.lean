import Stasis.RangeTracker.Pinned

/-!
The ranges that adding and removing a range report.

A tracker is read back as the ranges in which its count is not zero. Adding a range
reports the blocks that were not pinned before and are pinned after it, and removing
one reports the blocks that were pinned before and are not after it.
-/
namespace Stasis.RangeTracker
open CompareList List Option

/-- The ranges are increasing, do not touch, and have the positions with property `P`. -/
structure Spans (l : List Range) (P : Int → Prop) : Prop where
  apart : l.Pairwise fun r r' => r.stop < r'.start
  order : ∀ r ∈ l, r.start < r.stop
  covers : ∀ x, P x ↔ ∃ r ∈ l, r.start ≤ x ∧ x < r.stop

theorem Spans.congr (h : Spans l P) (same : ∀ x, P x ↔ Q x) : Spans l Q :=
  ⟨h.apart, h.order, fun x => (same x).symm.trans (h.covers x)⟩

section
variable (h : Spans l P)
include h

theorem Spans.cons (order : r.start < r.stop) (front : ∀ r' ∈ l, r.stop < r'.start) :
    Spans (r :: l) fun x => r.start ≤ x ∧ x < r.stop ∨ P x := by
  refine ⟨pairwise_cons.mpr ⟨front, h.apart⟩, ?_, fun x => ?_⟩
  · intro r' mem
    rcases mem_cons.mp mem with rfl | mem
    · exact order
    · exact h.order r' mem
  · simp only [mem_cons, exists_eq_or_imp, h.covers]

theorem Spans.separate (mem : r ∈ l) (mem' : r' ∈ l) :
    r = r' ∨ r.stop < r'.start ∨ r'.stop < r.start := by
  refine List.Pairwise.forall_of_forall_of_flip
    (R := fun r r' : Range => r = r' ∨ r.stop < r'.start ∨ r'.stop < r.start)
    (fun r _ => .inl rfl) (h.apart.imp fun lt => .inr (.inl lt))
    (h.apart.imp fun lt => .inr (.inr lt)) mem mem'

theorem Spans.before (mem : r ∈ l) : P r.start ∧ ¬ P (r.start - 1) := by
  have order := h.order r mem
  refine ⟨(h.covers _).mpr ⟨r, mem, le_rfl, order⟩, fun other => ?_⟩
  obtain ⟨r', mem', low, high⟩ := (h.covers _).mp other
  rcases h.separate mem mem' with rfl | first | second <;> omega

theorem Spans.behind (mem : r ∈ l) : P (r.stop - 1) ∧ ¬ P r.stop := by
  have order := h.order r mem
  refine ⟨(h.covers _).mpr ⟨r, mem, by omega, by omega⟩, fun other => ?_⟩
  obtain ⟨r', mem', low, high⟩ := (h.covers _).mp other
  rcases h.separate mem mem' with rfl | first | second <;> omega

theorem Spans.aligned (pos : 0 < q) (block : ∀ x y, y / q = x / q → P y → P x) (mem : r ∈ l) :
    q ∣ r.start ∧ q ∣ r.stop := by
  have inner : ∀ x, ¬ q ∣ x → (x - 1) / q = x / q := by
    intro x apart
    have high := Int.emod_lt_of_pos x pos
    have sum := Int.ediv_mul_add_emod x q
    have block : q ∣ x / q * q := Int.dvd_mul_left _ _
    refine same_block pos block ?_ ?_ ?_ ?_ <;> omega
  constructor
  · by_contra apart
    obtain ⟨here, outside⟩ := h.before mem
    exact outside (block _ _ (inner r.start apart).symm here)
  · by_contra apart
    obtain ⟨last, outside⟩ := h.behind mem
    exact outside (block _ _ (inner r.stop apart) last)

end

section Collect
variable {ranges : List Transition} {g : Int → Int} {c : Int}

/-- The transitions of `g` behind position `c`. -/
structure Rest (ranges : List Transition) (g : Int → Int) (c : Int) : Prop where
  sorted : ranges.Pairwise fun a b => a.pos < b.pos
  mem : ∀ t, t ∈ ranges ↔ IsTransition g t ∧ c < t.pos
  nonneg : ∀ x, 0 ≤ g x
  lt : ∀ x, g x < 2147483648
  behind : ∀ x, 2 ^ 63 ≤ x → g x = 0

variable {x : Int}

theorem Rest.flat (h : Rest ranges g c) (le : c ≤ x) (none : ∀ t ∈ ranges, x < t.pos) :
    g x = g c := by
  refine constant_between le fun p low high => ?_
  by_contra ne
  have stored := (h.mem ⟨p, g p - g (p - 1), g (p - 1)⟩).mpr ⟨isTransition_of_ne ne, low⟩
  have behind := none _ stored
  dsimp only at behind
  omega

theorem Rest.value (h : Rest ranges g c) (mem : t ∈ ranges) :
    toInt (t.pins + t.delta) = g t.pos := by
  have nonneg := h.nonneg t.pos
  have bound := h.lt t.pos
  rw [((h.mem t).mp mem).1.2.2]
  exact toInt_of_range (by omega) (by omega)

theorem Rest.zero_of_nil (h : Rest [] g c) (le : c ≤ x) : g x = 0 := by
  have here := h.flat le fun t mem => absurd mem not_mem_nil
  have far := h.flat (x := max c (2 ^ 63)) (le_max_left _ _) fun t mem => absurd mem not_mem_nil
  rw [here, ← far]
  exact h.behind _ (le_max_right _ _)

theorem Rest.tail (h : Rest (t :: ranges) g c) : Rest ranges g t.pos := by
  have first := (pairwise_cons.mp h.sorted).1
  have front := ((h.mem t).mp mem_cons_self).2
  refine ⟨h.sorted.of_cons, fun u => ⟨fun mem => ?_, fun isU => ?_⟩, h.nonneg, h.lt, h.behind⟩
  · exact ⟨((h.mem u).mp (.tail _ mem)).1, first u mem⟩
  · rcases mem_cons.mp ((h.mem u).mpr ⟨isU.1, by omega⟩) with rfl | mem
    · exact absurd isU.2 (lt_irrefl _)
    · exact mem

theorem Rest.head (h : Rest (t :: ranges) g c) (low : c ≤ x) (high : x < t.pos) : g x = g c := by
  refine h.flat low fun u mem => ?_
  rcases mem_cons.mp mem with rfl | mem
  · exact high
  · have := (pairwise_cons.mp h.sorted).1 u mem
    omega

/-- The range that is open at position `c`, and the positions behind it. -/
def Ahead (g : Int → Int) (c : Int) (start : Option Int) (x : Int) : Prop :=
  (∃ s, start = some s ∧ s ≤ x ∧ x ≤ c) ∨ c < x ∧ g x ≠ 0

theorem ahead_iff (isOpen : ∀ s, start = some s → s ≤ c) (x : Int) :
    Ahead g c start x ↔ start.getD (c + 1) ≤ x ∧ (c < x → g x ≠ 0) := by
  cases start with
  | none =>
    simp only [Ahead, reduceCtorEq, false_and, exists_false, false_or, getD_none]
    omega
  | some s =>
    have le := isOpen s rfl
    simp only [Ahead, some.injEq, exists_eq_left', getD_some]
    omega

theorem collect_spec (start : Option Int) (h : Rest ranges g c)
    (isOpen : ∀ s, start = some s → s ≤ c ∧ g c ≠ 0)
    (shut : start = none → g c = 0) :
    ∃ l, collect ranges start = some l ∧
      l.length = ranges.countP (fun t => toInt (t.pins + t.delta) = 0) ∧
      Spans l (Ahead g c start) ∧ ∀ r ∈ l, start.getD (c + 1) ≤ r.start := by
  induction ranges generalizing c start with
  | nil =>
    have zero : ∀ x, c ≤ x → g x = 0 := fun x le => h.zero_of_nil le
    refine ⟨[], rfl, rfl, ⟨.nil, by simp, fun x => ?_⟩, by simp⟩
    constructor
    · rintro (⟨s, eq, _⟩ | ⟨behind, pinned⟩)
      · exact absurd (zero c le_rfl) (isOpen s eq).2
      · exact absurd (zero x (by omega)) pinned
    · rintro ⟨r, mem, _⟩
      cases mem
  | cons t ranges ih =>
    have value := h.value mem_cons_self
    obtain ⟨isT, front⟩ := (h.mem t).mp mem_cons_self
    have flat : ∀ x, c ≤ x → x < t.pos → g x = g c := fun x => h.head
    have moves := isT.ne
    rw [flat (t.pos - 1) (by omega) (by omega)] at moves
    rw [collect, value, countP_cons, value]
    by_cases pinned : g t.pos = 0
    · cases start with
      | none => exact absurd (pinned.trans (shut rfl).symm) moves
      | some s =>
        obtain ⟨le, open'⟩ := isOpen s rfl
        obtain ⟨l, run, count, spans, low⟩ := ih none h.tail
          (fun s eq => nomatch eq) fun _ => pinned
        rw [if_neg (not_not_intro pinned), bind_some, run, map_some]
        refine ⟨_, rfl, by simp [count, pinned], ?_, ?_⟩
        · refine (spans.cons (r := ⟨s, t.pos⟩) (by dsimp only; omega) fun r mem => ?_).congr ?_
          · have := low r mem
            simp only [getD_none] at this ⊢
            omega
          · intro x
            have flat := flat x
            have here : x = t.pos → g x = 0 := fun eq => eq ▸ pinned
            rw [ahead_iff, ahead_iff fun s' eq => some.inj eq ▸ le, getD_none, getD_some]
            · dsimp only
              omega
            · exact nofun
        · intro r mem
          rcases mem_cons.mp mem with rfl | mem
          · exact le_rfl
          · have := low r mem
            simp only [getD_none, getD_some] at this ⊢
            omega
    · have within : start.getD t.pos ≤ t.pos := by
        cases start with
        | none => exact le_rfl
        | some s =>
          have := (isOpen s rfl).1
          simp only [getD_some]
          omega
      obtain ⟨l, run, count, spans, low⟩ := ih (some (start.getD t.pos)) h.tail
        (fun s eq => some.inj eq ▸ ⟨within, pinned⟩) fun eq => nomatch eq
      rw [if_pos pinned, run]
      refine ⟨l, rfl, by simp [count, pinned], spans.congr fun x => ?_, fun r mem => ?_⟩
      · have flat := flat x
        have here : x = t.pos → g x ≠ 0 := fun eq => eq ▸ pinned
        rw [ahead_iff fun s eq => some.inj eq ▸ within, ahead_iff fun s eq => (isOpen s eq).1, getD_some]
        cases start with
        | none =>
          have zero := shut rfl
          simp only [getD_none]
          omega
        | some s =>
          have opened := isOpen s rfl
          simp only [getD_some]
          omega
      · have := low r mem
        cases start with
        | none =>
          simp only [getD_some, getD_none] at this ⊢
          omega
        | some s => exact this

end Collect

section Reports
variable {ranges : List Transition} {f : Int → Int} {q a b : Int} {r : Range}

theorem Counts.rest (h : Counts ranges g) : Rest ranges g (-1) := by
  refine ⟨h.sorted, fun t => ?_, h.nonneg, h.lt, h.behind⟩
  rw [h.mem]
  refine ⟨fun isT => ⟨isT, ?_⟩, fun isT => isT.1⟩
  by_contra early
  exact isT.ne ((h.before t.pos (by omega)).trans (h.before (t.pos - 1) (by omega)).symm)

theorem Rest.last (h : Rest ranges g c) :
    (ranges.getLast?.any fun t => toInt (t.pins + t.delta) ≠ 0) = false := by
  induction ranges generalizing c with
  | nil => rfl
  | cons t ranges ih =>
    cases ranges with
    | nil =>
      have zero := h.tail.zero_of_nil le_rfl
      rw [getLast?_singleton, any_some, h.value mem_cons_self, zero]
      rfl
    | cons u ranges =>
      exact ih h.tail

theorem rangeTrackerToArray_spec (h : Counts ranges g) :
    ∃ l, rangeTrackerToArray ranges = some l ∧ Spans l fun x => g x ≠ 0 := by
  have rest := h.rest
  have start : g (-1) = 0 := h.before (-1) (by decide)
  cases ranges with
  | nil =>
    refine ⟨[], rfl, .nil, by simp, fun x => ?_⟩
    have zero : g x = 0 := by
      by_cases low : -1 ≤ x
      · exact rest.zero_of_nil low
      · exact h.before x (by omega)
    simp [zero]
  | cons t ranges =>
    obtain ⟨isT, front⟩ := (rest.mem t).mp mem_cons_self
    have pins : t.pins = 0 := by
      rw [isT.2.1, rest.head (by omega) (by omega), start]
    have pinned : g t.pos ≠ 0 := by
      have sum := isT.2.2
      have moves := isT.1
      omega
    obtain ⟨l, run, count, spans, _⟩ := collect_spec (some t.pos) rest.tail
      (fun s eq => some.inj eq ▸ ⟨le_rfl, pinned⟩) fun eq => nomatch eq
    have length : l.length = rangeCount (t :: ranges) := by
      rw [rangeCount, rest.last, countP_cons, rest.value mem_cons_self, count]
      simp [pinned]
    rw [rangeTrackerToArray, if_pos ⟨pins, isT.1⟩, run, bind_some, if_pos length]
    refine ⟨l, rfl, spans.congr fun x => ?_⟩
    have early := rest.head (x := x)
    have before := h.before x
    have here : x = t.pos → g x ≠ 0 := fun eq => eq ▸ pinned
    rw [ahead_iff fun s eq => Int.le_of_eq (some.inj eq).symm, getD_some]
    omega

theorem Spans.within (h : Spans l fun x => g x ≠ 0) (encodes : Encodes ret g)
    (within : Within ret a b) (mem : r ∈ l) : a ≤ r.start ∧ r.stop ≤ b := by
  obtain ⟨here, front⟩ := h.before mem
  obtain ⟨last, behind⟩ := h.behind mem
  have first := within _ ((encodes.mem _).mpr
    (isTransition_of_ne (p := r.start) (not_not.mp front ▸ here)))
  have second := within _ ((encodes.mem _).mpr
    (isTransition_of_ne (p := r.stop) (not_not.mp behind ▸ last.symm)))
  exact ⟨first.1, second.2⟩

theorem removeAll_spec (window : Window q a b) (counts : Counts ret g) (within : Within ret a b)
    (spans : Spans l P) (inside : ∀ r ∈ l, a ≤ r.start ∧ r.stop ≤ b) (pinned : ∀ x, P x → 0 < g x) :
    ∃ ret', removeAll ret l = some ret' ∧ Output a b P g (-1) ret' := by
  induction l generalizing ret g P with
  | nil =>
    refine ⟨ret, rfl, g, counts, within, fun x => ⟨fun h => ?_, fun _ => rfl⟩⟩
    obtain ⟨r, mem, _⟩ := (spans.covers x).mp h
    cases mem
  | cons r l ih =>
    have first := (pairwise_cons.mp spans.apart).1
    have order := spans.order r mem_cons_self
    obtain ⟨startGe, stopLe⟩ := inside r mem_cons_self
    have mine : ∀ x, r.start ≤ x → x < r.stop → P x := fun x low high =>
      (spans.covers x).mpr ⟨r, mem_cons_self, low, high⟩
    obtain ⟨mid, run, counts', within'⟩ := rangeTrackerDelta_spec counts within
      (window.changeable counts (by decide : (-1 : Int) ≠ 0) startGe order stopLe fun x low high => by
        have bound := counts.lt x
        have := pinned x (mine x low high)
        omega)
    have rest : Spans l fun x => ∃ r' ∈ l, r'.start ≤ x ∧ x < r'.stop :=
      ⟨spans.apart.of_cons, fun r' mem => spans.order r' (.tail _ mem), fun x => Iff.rfl⟩
    have later : ∀ x, (∃ r' ∈ l, r'.start ≤ x ∧ x < r'.stop) → r.stop ≤ x ∧ P x := by
      rintro x ⟨r', mem, low, high⟩
      have := first r' mem
      exact ⟨by omega, (spans.covers x).mpr ⟨r', .tail _ mem, low, high⟩⟩
    obtain ⟨ret', run', after, counts'', within'', marks⟩ := ih counts' within' rest
      (fun r' mem => inside r' (.tail _ mem)) fun x h => by
        rw [changed_outside (.inr (later x h).1)]
        exact pinned x (later x h).2
    refine ⟨ret', ?_, after, counts'', within'', fun x => ⟨fun h => ?_, fun out => ?_⟩⟩
    · rw [removeAll, foldlM_cons, run]
      exact run'
    · obtain ⟨r', mem, low, high⟩ := (spans.covers x).mp h
      rcases mem_cons.mp mem with rfl | mem
      · rw [(marks x).2 fun h => absurd (later x h).1 (by omega), changed_inside low high]
      · have other : ∃ r' ∈ l, r'.start ≤ x ∧ x < r'.stop := ⟨r', mem, low, high⟩
        rw [(marks x).1 other, changed_outside (.inr (later x other).1)]
    · have outside : ¬ (r.start ≤ x ∧ x < r.stop) := fun h => out (mine x h.1 h.2)
      rw [(marks x).2 fun h => out (later x h).2, changed_outside (by omega)]

/-- A tracker is read back and emptied. -/
theorem Counts.emptied (counts : Counts ret g) (window : Window q a b) (within : Within ret a b) :
    ∃ l ret', rangeTrackerToArray ret = some l ∧ removeAll ret l = some ret' ∧
      Spans l fun x => g x ≠ 0 := by
  obtain ⟨l, run, spans⟩ := rangeTrackerToArray_spec counts
  obtain ⟨ret', clear, _⟩ := removeAll_spec window counts within spans
    (fun r mem => spans.within counts.toEncodes within mem) fun x nonzero => by
      have := counts.nonneg x
      omega
  exact ⟨l, ret', run, clear, spans⟩

/-- The block of `x` has a pinned position. -/
def BlockPinned (q : Int) (f : Int → Int) (x : Int) : Prop := ∃ y, y / q = x / q ∧ f y ≠ 0

variable {rt : RangeTracker}

theorem Expanded.touched_iff (window : Expanded q a b e) (x : Int) :
    Touched q f e.start e.stop x ↔ (e.start ≤ x ∧ x < e.stop) ∧ BlockPinned q f x := by
  constructor
  · rintro ⟨y, low, high, pinned, block⟩
    exact ⟨⟨aligned_le window.pos window.start_aligned block low,
      aligned_lt window.pos window.end_aligned block high⟩, y, block, pinned⟩
  · rintro ⟨⟨low, high⟩, y, block, pinned⟩
    exact ⟨y, aligned_le window.pos window.start_aligned block.symm low,
      aligned_lt window.pos window.end_aligned block.symm high, pinned, block⟩

theorem Window.expanded (window : Window q a b) (startGe : a ≤ r.start) (order : r.start < r.stop)
    (stopLe : r.stop ≤ b) :
    ∃ e, rangeTrackerRoundDown r.start q = e.start ∧ rangeTrackerRoundUp r.stop q = e.stop ∧
      Expanded q a b e ∧ e.start ≤ r.start ∧ r.stop ≤ e.stop := by
  have low := window.low
  obtain ⟨divides, below, near⟩ := rangeTrackerRoundDown_spec (x := r.start) window.pos (by omega)
  obtain ⟨divides', above, _, fits⟩ := rangeTrackerRoundUp_spec (x := r.stop) window.pos (by omega)
    stopLe window.high_aligned window.high
  refine ⟨⟨rangeTrackerRoundDown r.start q, rangeTrackerRoundUp r.stop q⟩, rfl, rfl,
    ⟨window, divides, divides', ?_, by dsimp only; omega, fits⟩, below, above⟩
  by_contra early
  dsimp only at early
  have := aligned_add_le divides window.low_aligned (by omega)
  omega

theorem Expanded.block_changed (window : Expanded q a b e) (startLe : e.start ≤ r.start)
    (stopGe : r.stop ≤ e.stop)
    (differs : ¬ (BlockPinned q (changed f r delta) x ↔ BlockPinned q f x)) :
    e.start ≤ x ∧ x < e.stop := by
  by_contra outside
  refine differs (exists_congr fun y => and_congr_right fun block => ?_)
  have apart : y < r.start ∨ r.stop ≤ y := by
    by_contra inside
    have low := aligned_le window.pos window.start_aligned block (by omega)
    have high := aligned_lt window.pos window.end_aligned block (by omega)
    exact outside ⟨low, high⟩
  rw [changed_outside apart]

theorem counts_nil : Counts [] fun _ => 0 := by
  refine ⟨⟨.nil, fun t => ⟨fun mem => absurd mem not_mem_nil, fun isT => ?_⟩⟩, fun _ =>
    le_rfl, fun _ => by decide, fun _ _ => rfl, fun _ _ => rfl⟩
  exact absurd rfl isT.ne

theorem Marks.pinned_iff (marks : Marks P (fun _ => 0) g delta) (moves : delta ≠ 0) (x : Int) :
    g x ≠ 0 ↔ P x := by
  constructor
  · intro nonzero
    by_contra out
    exact nonzero ((marks x).2 out)
  · intro mine
    rw [(marks x).1 mine, Int.zero_add]
    exact moves

theorem BlockPinned.mono (le : ∀ y, f y ≠ 0 → g y ≠ 0) (h : BlockPinned q f x) :
    BlockPinned q g x := by
  obtain ⟨y, block, pinned⟩ := h
  exact ⟨y, block, le y pinned⟩

theorem BlockPinned.block (same : y / q = x / q) (h : BlockPinned q f y) : BlockPinned q f x := by
  obtain ⟨z, block, pinned⟩ := h
  exact ⟨z, block.trans same, pinned⟩

/-- The tracker counts the pins `f`, with transitions in the window. -/
structure Tracks (rt : RangeTracker) (q a b : Int) (f : Int → Int) : Prop where
  quantization : rt.quantization = q
  counts : Counts rt.ranges f
  within : Within rt.ranges a b

theorem within_nil : Within [] a b := fun _ mem => absurd mem not_mem_nil

theorem Tracks.pinnedRanges (h : Tracks rt q a b f) (window : Expanded q a b e)
    (down : rangeTrackerRoundDown r.start q = e.start)
    (up : rangeTrackerRoundUp r.stop q = e.stop) :
    ∃ ret g, RangeTracker.pinnedRanges rt r [] 1 = some ret ∧ Counts ret g ∧ Within ret a b ∧
      Marks (Touched q f e.start e.stop) (fun _ => 0) g 1 := by
  have quantized := h.quantization
  subst quantized
  obtain ⟨ret, run, g, counts, within, marks⟩ := pinnedRanges_spec h.counts h.within window down up
    (⟨by decide, fun _ _ => by decide, fun _ _ => by decide⟩ :
      Writable rt.quantization f e (fun _ => 0) 1) counts_nil within_nil
  exact ⟨ret, g, run, counts, within, marks⟩

section
variable (h : Tracks rt q a b f) (window : Window q a b) (startGe : a ≤ r.start)
  (order : r.start < r.stop) (stopLe : r.stop ≤ b)
include h window startGe order stopLe

theorem rangeTrackerAdd_spec (few : ∀ x, changed f r 1 x < 2147483648) :
    ∃ rt' l, rangeTrackerAdd rt r = some (rt', l) ∧ Tracks rt' q a b (changed f r 1) ∧
      Spans l fun x => ¬ BlockPinned q f x ∧ BlockPinned q (changed f r 1) x := by
  obtain ⟨e, down, up, expanded, startLe, stopGe⟩ := window.expanded startGe order stopLe
  have nonneg := h.counts.nonneg
  have more : ∀ y, f y ≠ 0 → changed f r 1 y ≠ 0 := by
    intro y pinned
    have := nonneg y
    rw [changed]
    split <;> omega
  obtain ⟨ret, g, run, counts, within, marks⟩ := h.pinnedRanges expanded down up
  obtain ⟨ranges, changeRun, counts', within'⟩ := rangeTrackerDelta_spec h.counts h.within
    (window.changeable h.counts Int.one_ne_zero startGe order stopLe fun x low high =>
      ⟨Int.le_add_one (nonneg x), by rw [← changed_inside low high]; exact few x⟩)
  have after : Tracks { rt with ranges := ranges } q a b (changed f r 1) :=
    ⟨h.quantization, counts', within'⟩
  obtain ⟨ret2, g2, run2, counts2, within2, marks2⟩ := after.pinnedRanges expanded down up
  have pinnedIff := marks.pinned_iff (by decide)
  have pinnedIff2 := marks2.pinned_iff (by decide)
  -- What was pinned before is pinned after, so it can be taken away.
  have subset : ∀ x, g x ≠ 0 → 0 < g2 x := by
    intro x pinned
    rw [pinnedIff, expanded.touched_iff] at pinned
    have nonzero := (pinnedIff2 x).mpr ((expanded.touched_iff x).mpr ⟨pinned.1, pinned.2.mono more⟩)
    have := counts2.nonneg x
    omega
  obtain ⟨pinned, _, arrayRun, clearRun, spans⟩ := counts.emptied window within
  obtain ⟨ret3, removeRun, g3, counts3, within3, marks3⟩ := removeAll_spec window counts2 within2 spans
    (fun r mem => spans.within (r := r) counts.toEncodes within mem) subset
  obtain ⟨added, _, arrayRun3, clearRun3, spans3⟩ := counts3.emptied window within3
  refine ⟨_, added, ?_, after, spans3.congr fun x => ?_⟩
  · rw [rangeTrackerAdd, run, bind_some, changeRun, bind_some]
    dsimp only
    rw [run2, bind_some, arrayRun, bind_some, removeRun, bind_some, clearRun,
      bind_some, arrayRun3, bind_some, clearRun3, map_some]
  · have old := (pinnedIff x).trans (expanded.touched_iff x)
    have new := (pinnedIff2 x).trans (expanded.touched_iff x)
    have unit : g2 x = 0 ∨ g2 x = 1 := by
      by_cases mine : Touched q (changed f r 1) e.start e.stop x
      · exact .inr ((marks2 x).1 mine)
      · exact .inl ((marks2 x).2 mine)
    constructor
    · intro nonzero
      have unpinned : g x = 0 := by
        by_contra was
        have := (marks3 x).1 was
        have := subset x was
        omega
      rw [(marks3 x).2 (not_not_intro unpinned)] at nonzero
      have now := new.mp nonzero
      exact ⟨fun before => old.mpr ⟨now.1, before⟩ unpinned, now.2⟩
    · rintro ⟨notBefore, now⟩
      have position := expanded.block_changed startLe stopGe
        (fun same => notBefore (same.mp now))
      have unpinned : g x = 0 := by
        by_contra was
        exact notBefore (old.mp was).2
      rw [(marks3 x).2 (not_not_intro unpinned)]
      exact new.mpr ⟨position, now⟩

theorem rangeTrackerRemove_spec (pinned : ∀ x, r.start ≤ x → x < r.stop → 0 < f x) :
    ∃ rt' l, rangeTrackerRemove rt r = some (rt', l) ∧ Tracks rt' q a b (changed f r (-1)) ∧
      Spans l fun x => BlockPinned q f x ∧ ¬ BlockPinned q (changed f r (-1)) x := by
  obtain ⟨e, down, up, expanded, startLe, stopGe⟩ := window.expanded startGe order stopLe
  have less : ∀ y, changed f r (-1) y ≠ 0 → f y ≠ 0 := by
    intro y nonzero
    rw [changed] at nonzero
    split at nonzero
    · next inside => exact (pinned y inside.1 inside.2).ne'
    · exact nonzero
  obtain ⟨ret, g, run, counts, within, marks⟩ := h.pinnedRanges expanded down up
  obtain ⟨ranges, changeRun, counts', within'⟩ := rangeTrackerDelta_spec h.counts h.within
    (window.changeable h.counts (by decide : (-1 : Int) ≠ 0) startGe order stopLe fun x low high => by
      have bound := h.counts.lt x
      have := pinned x low high
      omega)
  have after : Tracks { rt with ranges := ranges } q a b (changed f r (-1)) :=
    ⟨h.quantization, counts', within'⟩
  have touched : ∀ x, Touched q (changed f r (-1)) e.start e.stop x → g x = 1 := by
    intro x late
    rw [expanded.touched_iff] at late
    exact (marks x).1 ((expanded.touched_iff x).mpr ⟨late.1, late.2.mono less⟩)
  have quantized := h.quantization
  subst quantized
  obtain ⟨ret2, run2, g2, counts2, within2, marks2⟩ := pinnedRanges_spec after.counts after.within
    expanded down up
    (⟨by decide, fun x late => by rw [touched x late]; decide,
      fun x late => by rw [touched x late]; decide⟩ :
      Writable rt.quantization (changed f r (-1)) e g (-1)) counts within
  obtain ⟨removed, _, arrayRun, clearRun, spans⟩ := counts2.emptied window within2
  refine ⟨_, removed, ?_, after, spans.congr fun x => ?_⟩
  · rw [rangeTrackerRemove, run, bind_some, changeRun, bind_some]
    dsimp only
    rw [run2, bind_some, arrayRun, bind_some, clearRun, map_some]
  · have old := (marks.pinned_iff (by decide) x).trans (expanded.touched_iff x)
    constructor
    · intro nonzero
      have unpinned : ¬ Touched rt.quantization (changed f r (-1)) e.start e.stop x := by
        intro late
        rw [(marks2 x).1 late, touched x late] at nonzero
        exact nonzero rfl
      rw [(marks2 x).2 unpinned] at nonzero
      have was := old.mp nonzero
      exact ⟨was.2, fun now => unpinned ((expanded.touched_iff x).mpr ⟨was.1, now⟩)⟩
    · rintro ⟨was, notNow⟩
      have position := expanded.block_changed startLe stopGe
        (fun same => notNow (same.mpr was))
      rw [(marks2 x).2 fun late => notNow ((expanded.touched_iff x).mp late).2]
      exact old.mpr ⟨position, was⟩

end

end Reports

end Stasis.RangeTracker
