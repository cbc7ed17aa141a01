import Stasis.RangeTracker.Delta

/-!
The pinned blocks of a range.

The scan goes over the transitions behind the start of the request, rounded down, and
puts out the ranges of blocks that have a pinned position. It holds one range back,
since the next one may begin in the block in which this one ends.
-/
namespace Stasis.RangeTracker
open CompareList

section Blocks
variable {y b : Int}

theorem aligned_le (pos : 0 < q) (aligned : q ∣ d) (block : y / q = x / q) (le : d ≤ y) :
    d ≤ x := by
  obtain ⟨k, rfl⟩ := aligned
  have quotient : k ≤ y / q := (Int.le_ediv_iff_mul_le pos).mpr (by rw [Int.mul_comm]; exact le)
  rw [block, Int.le_ediv_iff_mul_le pos, Int.mul_comm] at quotient
  exact quotient

theorem aligned_lt (pos : 0 < q) (aligned : q ∣ d) (block : y / q = x / q) (lt : y < d) :
    x < d := by
  by_contra ge
  exact absurd (aligned_le pos aligned block.symm (not_lt.mp ge)) (not_le.mpr lt)

theorem same_block (pos : 0 < q) (aligned : q ∣ d) (lowX : d ≤ x) (highX : x < d + q)
    (lowY : d ≤ y) (highY : y < d + q) : y / q = x / q := by
  obtain ⟨k, rfl⟩ := aligned
  have quotient : ∀ z, q * k ≤ z → z < q * k + q → z / q = k := by
    intro z low high
    rw [Int.ediv_eq_iff_of_pos pos, Int.mul_comm]
    omega
  rw [quotient x lowX highX, quotient y lowY highY]

theorem aligned_add_le (aligned : q ∣ d) (aligned' : q ∣ b) (lt : d < b) :
    d + q ≤ b := by
  have := Int.le_of_dvd (show 0 < b - d by omega) (Int.dvd_sub aligned' aligned)
  omega

theorem rangeTrackerRoundDown_spec (pos : 0 < q) (nonneg : 0 ≤ x) :
    q ∣ rangeTrackerRoundDown x q ∧ rangeTrackerRoundDown x q ≤ x ∧
      x < rangeTrackerRoundDown x q + q := by
  rw [rangeTrackerRoundDown, Int.tdiv_eq_ediv_of_nonneg nonneg]
  have sum := Int.ediv_mul_add_emod x q
  have low := Int.emod_nonneg x (Int.ne_of_gt pos)
  have high := Int.emod_lt_of_pos x pos
  exact ⟨Int.dvd_mul_left _ _, by omega, by omega⟩

theorem rangeTrackerRoundUp_spec (pos : 0 < q) (low : 0 < x) (le : x ≤ b) (aligned : q ∣ b)
    (high : b < 2 ^ 63) :
    q ∣ rangeTrackerRoundUp x q ∧ x ≤ rangeTrackerRoundUp x q ∧
      rangeTrackerRoundUp x q < x + q ∧ rangeTrackerRoundUp x q ≤ b := by
  obtain ⟨divides, below, above⟩ := rangeTrackerRoundDown_spec (x := x - 1) pos (by omega)
  have fits := aligned_add_le divides aligned (by omega)
  have value : rangeTrackerRoundUp x q = rangeTrackerRoundDown (x - 1) q + q := by
    rw [rangeTrackerRoundUp, Int.add_mul, Int.one_mul, ← rangeTrackerRoundDown, Int.bmod_def]
    split <;> omega
  rw [value]
  exact ⟨Int.dvd_add divides (Int.dvd_refl q), by omega, by omega, fits⟩

end Blocks

/-- A block with a pinned position from `lo` up to `hi` has the position `x`. -/
def Touched (q : Int) (f : Int → Int) (lo hi x : Int) : Prop :=
  ∃ y, lo ≤ y ∧ y < hi ∧ f y ≠ 0 ∧ y / q = x / q

/-- The positions with property `P` have `delta` more pins in `after` than in `before`. -/
def Marks (P : Int → Prop) (before after : Int → Int) (delta : Int) : Prop :=
  ∀ x, (P x → after x = before x + delta) ∧ (¬ P x → after x = before x)

theorem Marks.congr (h : Marks P before after delta) (same : ∀ x, P x ↔ Q x) :
    Marks Q before after delta := by
  intro x
  rw [← same]
  exact h x

theorem Touched.mono (h : Touched q f lo hi x) (le : hi ≤ d) : Touched q f lo d x := by
  obtain ⟨y, low, high, pinned, block⟩ := h
  exact ⟨y, low, by omega, pinned, block⟩

theorem touched_split (pos : 0 < q) (aligned : q ∣ c) (h : Touched q f lo hi x) :
    Touched q f lo c x ∨ c ≤ x := by
  obtain ⟨y, low, high, pinned, block⟩ := h
  by_cases front : y < c
  · exact .inl ⟨y, low, front, pinned, block⟩
  · exact .inr (aligned_le pos aligned block (by omega))

theorem Touched.lt (pos : 0 < q) (aligned : q ∣ d) (h : Touched q f lo hi x) (le : hi ≤ d) :
    x < d := by
  obtain ⟨y, _, high, _, block⟩ := h
  exact aligned_lt pos aligned block (by omega)

theorem touched_round (pos : 0 < q) (order : start < stop) (aligned : q ∣ up)
    (near : up < stop + q) (inner : ∀ x, start ≤ x → x < stop → Touched q f lo stop x)
    (low : start ≤ x) (high : x < up) : Touched q f lo stop x := by
  by_cases early : x < stop
  · exact inner x low early
  · obtain ⟨y, lowY, highY, pinned, block⟩ := inner (stop - 1) (by omega) (by omega)
    refine ⟨y, lowY, highY, pinned, block.trans ?_⟩
    refine same_block pos (Int.dvd_sub aligned (Int.dvd_refl q)) ?_ ?_ ?_ ?_ <;> omega

theorem Touched.of_unpinned (h : Touched q f lo d x) (zero : ∀ y, c ≤ y → y < d → f y = 0) :
    Touched q f lo c x := by
  obtain ⟨y, low, high, pinned, block⟩ := h
  refine ⟨y, low, ?_, pinned, block⟩
  by_contra behind
  exact pinned (zero y (by omega) high)

/-- An aligned window that is narrow enough for the comparison. -/
structure Window (q a b : Int) : Prop where
  pos : 0 < q
  low : 0 ≤ a
  narrow : b - a < 2147483648
  high : b < 2 ^ 63
  low_aligned : q ∣ a
  high_aligned : q ∣ b

theorem Window.changeable (window : Window q a b) (counts : Counts ret f) (moves : delta ≠ 0)
    (startGe : a ≤ r.start) (order : r.start < r.stop) (stopLe : r.stop ≤ b)
    (values : ∀ x, r.start ≤ x → x < r.stop → 0 ≤ f x + delta ∧ f x + delta < 2147483648) :
    Changeable f r delta a b := by
  have bounds : ∀ x, 0 ≤ changed f r delta x ∧ changed f r delta x < 2147483648 := by
    intro x
    rw [changed]
    split
    · next inside => exact values x inside.1 inside.2
    · exact ⟨counts.nonneg x, counts.lt x⟩
  exact ⟨moves, order, window.low, window.narrow, window.high, startGe, stopLe,
    fun x => (bounds x).1, fun x => (bounds x).2⟩

/-- The expanded request, in the window. -/
structure Expanded (q a b : Int) (e : Range) : Prop extends Window q a b where
  start_aligned : q ∣ e.start
  end_aligned : q ∣ e.stop
  start_ge : a ≤ e.start
  order : e.start < e.stop
  stop_le : e.stop ≤ b

/-- The blocks that the scan may put out can be changed by `delta`. -/
structure Writable (q : Int) (f : Int → Int) (e : Range) (before : Int → Int) (delta : Int) :
    Prop where
  moves : delta ≠ 0
  nonneg : ∀ x, Touched q f e.start e.stop x → 0 ≤ before x + delta
  lt : ∀ x, Touched q f e.start e.stop x → before x + delta < 2147483648

/-- The ranges of a tracker after the blocks with property `P` were put out. -/
def Output (a b : Int) (P : Int → Prop) (before : Int → Int) (delta : Int)
    (ret : List Transition) : Prop :=
  ∃ after, Counts ret after ∧ Within ret a b ∧ Marks P before after delta

theorem Output.congr (h : Output a b P before delta ret) (same : ∀ x, P x ↔ Q x) :
    Output a b Q before delta ret := by
  obtain ⟨after, counts, within, marks⟩ := h
  exact ⟨after, counts, within, marks.congr same⟩

section Scan
variable {q a b delta c : Int} {f before : Int → Int} {e : Range} {s : Scan} {t : Transition}

theorem Output.emit (h : Output a b P before delta ret) (window : Expanded q a b e)
    (writable : Writable q f e before delta) (startGe : a ≤ cur.start)
    (order : cur.start < cur.stop) (stopLe : cur.stop ≤ b) (apart : ∀ x, P x → x < cur.start)
    (touched : ∀ x, cur.start ≤ x → x < cur.stop → Touched q f e.start e.stop x) :
    ∃ ret', rangeTrackerDelta ret cur delta = some ret' ∧
      Output a b (fun x => P x ∨ cur.start ≤ x ∧ x < cur.stop) before delta ret' := by
  obtain ⟨after, counts, within, marks⟩ := h
  have same : ∀ x, cur.start ≤ x → after x = before x := fun x low =>
    (marks x).2 fun h => absurd (apart x h) (by omega)
  have ok := window.changeable counts writable.moves startGe order stopLe fun x low high => by
    have block := touched x low high
    rw [same x low]
    exact ⟨writable.nonneg x block, writable.lt x block⟩
  obtain ⟨ret', run, counts', within'⟩ := rangeTrackerDelta_spec counts within ok
  refine ⟨ret', run, _, counts', within', fun x => ⟨?_, ?_⟩⟩
  · rintro (early | ⟨low, high⟩)
    · rw [changed_outside (.inl (apart x early))]
      exact (marks x).1 early
    · rw [changed_inside low high, same x low]
  · intro out
    rw [changed_outside (by omega)]
    exact (marks x).2 fun h => out (.inl h)

/-- The scan has gone over the transitions up to position `c`. The touched blocks in front of the
current range have been put out, and the current range is open or closed. -/
structure Scanned (q : Int) (f : Int → Int) (e : Range) (c a b delta : Int) (before : Int → Int)
    (s : Scan) : Prop where
  haveRange : s.haveRange = true
  aligned : q ∣ s.cur.start
  start_ge : e.start ≤ s.cur.start
  output : Output a b (Touched q f e.start s.cur.start) before delta s.ret
  opened : s.inRange = true → s.cur.start ≤ c ∧ f c ≠ 0 ∧
    ∀ x, s.cur.start ≤ x → x ≤ c → Touched q f e.start (c + 1) x
  closed : s.inRange = false → f c = 0 ∧ s.cur.start < s.cur.stop ∧ c ≤ s.cur.stop ∧
    q ∣ s.cur.stop ∧ s.cur.stop ≤ e.stop ∧
    ∀ x, s.cur.start ≤ x → x < s.cur.stop → Touched q f e.start c x

/-- No transition has been seen. -/
structure Initial (e : Range) (c a b : Int) (before : Int → Int) (s : Scan) : Prop where
  position : c = e.start
  inRange : s.inRange = false
  haveRange : s.haveRange = false
  counts : Counts s.ret before
  within : Within s.ret a b

theorem Initial.output (h : Initial e c a b before s) (none : ∀ x, ¬ P x) :
    Output a b P before delta s.ret :=
  ⟨before, h.counts, h.within, fun x => ⟨fun h => absurd h (none x), fun _ => rfl⟩⟩

theorem Scanned.touched_iff (h : Scanned q f e c a b delta before s) (pos : 0 < q)
    (shut : s.inRange = false) (behind : s.cur.stop ≤ d) (zero : ∀ y, c ≤ y → y < d → f y = 0)
    (x : Int) :
    Touched q f e.start s.cur.start x ∨ s.cur.start ≤ x ∧ x < s.cur.stop ↔
      Touched q f e.start d x := by
  obtain ⟨_, order, le, aligned, _, touched⟩ := h.closed shut
  constructor
  · rintro (early | ⟨low, high⟩)
    · exact early.mono (by omega)
    · exact (touched x low high).mono (by omega)
  · intro late
    have front := late.of_unpinned zero
    rcases touched_split pos h.aligned front with early | behind
    · exact .inl early
    · exact .inr ⟨behind, front.lt pos aligned le⟩

/-- The next transition behind position `c`, and in front of the end. -/
structure Next (f : Int → Int) (e : Range) (c : Int) (t : Transition) : Prop where
  isTransition : IsTransition f t
  behind : c < t.pos
  front : t.pos < e.stop
  flat : ∀ y, c ≤ y → y < t.pos → f y = f c
  nonneg : ∀ x, 0 ≤ f x
  lt : ∀ x, f x < 2147483648

theorem Next.pins (next : Next f e c t) :
    t.pins = f c ∧ toInt (t.pins + t.delta) = f t.pos ∧ f t.pos ≠ f c := by
  obtain ⟨nonzero, pins, sum⟩ := next.isTransition
  have behind := next.behind
  have flat := next.flat (t.pos - 1) (by omega) (by omega)
  have nonneg := next.nonneg t.pos
  have bound := next.lt t.pos
  refine ⟨by omega, ?_, by omega⟩
  rw [sum]
  exact toInt_of_range (by omega) (by omega)

theorem Next.touched (next : Next f e c t) (pos : 0 < q) (start : e.start ≤ c)
    (pinned : f t.pos ≠ 0) (aligned : q ∣ d) (low : d ≤ x) (high : x ≤ t.pos)
    (near : t.pos < d + q) : Touched q f e.start (t.pos + 1) x := by
  have behind := next.behind
  exact ⟨t.pos, by omega, by omega, pinned, same_block pos aligned low (by omega) (by omega) near⟩

theorem scanNext_opened (h : Scanned q f e c a b delta before s) (window : Expanded q a b e)
    (next : Next f e c t) (isOpen : s.inRange = true) :
    ∃ s', scanNext q e delta t s = some s' ∧
      Scanned q f e t.pos a b delta before s' := by
  obtain ⟨pins, sum, moves⟩ := next.pins
  obtain ⟨le, pinned, touched⟩ := h.opened isOpen
  have startGe := h.start_ge
  have low := window.low
  have ge := window.start_ge
  have behind := next.behind
  have front := next.front
  have inner : ∀ x, s.cur.start ≤ x → x < t.pos → Touched q f e.start t.pos x := by
    intro x lowX highX
    by_cases early : x ≤ c
    · exact (touched x lowX early).mono (by omega)
    · have same := next.flat x (by omega) highX
      exact ⟨x, by omega, highX, by omega, rfl⟩
  rw [scanNext]
  dsimp only
  rw [if_pos isOpen, if_pos ⟨h.haveRange, by omega⟩, sum]
  by_cases ends : f t.pos = 0
  · obtain ⟨divides, above, near, fits⟩ := rangeTrackerRoundUp_spec (x := t.pos) window.pos
      (by omega) (le_of_lt front) window.end_aligned
      (by have := window.high; have := window.stop_le; omega)
    rw [if_pos ends, if_pos (by omega)]
    refine ⟨_, rfl, h.haveRange, h.aligned, startGe, h.output, (fun h => nomatch h), fun _ =>
      ⟨ends, by dsimp only; omega, above, divides, fits, ?_⟩⟩
    intro x lowX highX
    exact touched_round window.pos (by omega) divides near inner lowX highX
  · rw [if_neg ends]
    refine ⟨s, rfl, h.haveRange, h.aligned, startGe, h.output, fun _ =>
      ⟨by omega, ends, ?_⟩, fun shut => absurd (isOpen.symm.trans shut) nofun⟩
    intro x lowX highX
    by_cases early : x < t.pos
    · exact (inner x lowX early).mono (by omega)
    · exact ⟨t.pos, by omega, by omega, ends, by rw [show x = t.pos by omega]⟩

theorem scanNext_closed (h : Scanned q f e c a b delta before s) (window : Expanded q a b e)
    (writable : Writable q f e before delta) (next : Next f e c t)
    (shut : s.inRange = false) :
    ∃ s', scanNext q e delta t s = some s' ∧
      Scanned q f e t.pos a b delta before s' := by
  obtain ⟨pins, sum, moves⟩ := next.pins
  obtain ⟨zero, order, le, aligned, stopLe, touched⟩ := h.closed shut
  have startGe := h.start_ge
  have low := window.low
  have ge := window.start_ge
  have behind := next.behind
  have front := next.front
  have fits := window.stop_le
  have pinned : f t.pos ≠ 0 := by omega
  have position : e.start ≤ c := by
    obtain ⟨y, lowY, highY, _⟩ := touched s.cur.start le_rfl order
    omega
  obtain ⟨divides, below, near⟩ :=
    rangeTrackerRoundDown_spec (x := t.pos) window.pos (by omega)
  have block := fun x => next.touched (x := x) window.pos position pinned divides
  rw [scanNext]
  dsimp only
  rw [if_neg (by rw [shut]; exact nofun), if_pos h.haveRange, if_pos ⟨by omega, by omega⟩]
  by_cases merge : rangeTrackerRoundDown t.pos q ≤ s.cur.stop
  · rw [if_pos merge]
    refine ⟨_, rfl, h.haveRange, h.aligned, startGe, h.output, fun _ =>
      ⟨?_, pinned, ?_⟩, (fun h => nomatch h)⟩
    · obtain ⟨y, lowY, highY, pinnedY, blockY⟩ := touched s.cur.start le_rfl order
      have := aligned_le window.pos h.aligned blockY.symm le_rfl
      dsimp only
      omega
    · intro x lowX highX
      by_cases early : x < s.cur.stop
      · exact (touched x lowX early).mono (by omega)
      · exact block x (by omega) highX near
  · obtain ⟨ret, run, output⟩ := h.output.emit window writable (by omega) order (by omega)
      (fun x early => early.lt window.pos h.aligned le_rfl)
      fun x lowX highX => (touched x lowX highX).mono (by omega)
    have same := h.touched_iff window.pos shut (d := rangeTrackerRoundDown t.pos q) (by omega)
      fun y lowY highY => by
        have := next.flat y lowY (by omega)
        omega
    rw [if_neg merge, run, Option.map_some]
    refine ⟨_, rfl, h.haveRange, divides, ?_, output.congr same, fun _ =>
      ⟨below, pinned, fun x lowX highX => block x lowX highX near⟩, (fun h => nomatch h)⟩
    dsimp only
    omega

/-- Where the request starts at a pinned position, the scan goes on as if a range was open there. -/
theorem Initial.opened (h : Initial e c a b before s) (window : Expanded q a b e) (pinned : f c ≠ 0) :
    Scanned q f e c a b delta before
      { s with inRange := true, haveRange := true, cur.start := e.start } := by
  refine ⟨rfl, window.start_aligned, le_rfl, h.output ?_, fun _ =>
    ⟨Int.le_of_eq h.position.symm, pinned, fun x low high => ?_⟩, (fun h => nomatch h)⟩
  · rintro x ⟨y, low, high, _⟩
    exact absurd high (not_lt.mpr low)
  · have same : x = c := le_antisymm high (h.position ▸ low)
    exact ⟨c, Int.le_of_eq h.position.symm, Int.lt_succ c, pinned, by rw [same]⟩

theorem scanNext_initial (h : Initial e c a b before s) (window : Expanded q a b e)
    (next : Next f e c t) :
    ∃ s', scanNext q e delta t s = some s' ∧
      Scanned q f e t.pos a b delta before s' := by
  obtain ⟨pins, sum, moves⟩ := next.pins
  have position := h.position
  have low := window.low
  have ge := window.start_ge
  have behind := next.behind
  have inRange := h.inRange
  rw [scanNext]
  dsimp only
  rw [if_neg (by rw [inRange]; exact nofun), if_neg (by rw [h.haveRange]; exact nofun)]
  by_cases started : f c = 0
  · have pinned : f t.pos ≠ 0 := by omega
    obtain ⟨divides, below, near⟩ :=
      rangeTrackerRoundDown_spec (x := t.pos) window.pos (by omega)
    have start : e.start ≤ rangeTrackerRoundDown t.pos q := by
      by_contra early
      have := aligned_add_le divides window.start_aligned (by omega)
      omega
    rw [sum, if_neg (by omega), if_pos pinned]
    refine ⟨_, rfl, rfl, divides, start, h.output ?_, fun _ => ⟨below, pinned, ?_⟩,
      (fun h => nomatch h)⟩
    · rintro x ⟨y, lowY, highY, pinnedY, _⟩
      have := next.flat y (by omega) (by dsimp only at highY; omega)
      omega
    · intro x lowX highX
      exact next.touched window.pos (by omega) pinned divides lowX highX near
  · obtain ⟨s', run, scanned⟩ := scanNext_opened (h.opened window started) window next rfl
    refine ⟨s', ?_, scanned⟩
    have pinned : t.pins ≠ 0 := by omega
    rw [← run]
    simp [scanNext, pinned, inRange]

/-- The scan has ended, with a last range that is still to be put out or with none. -/
structure Finished (q : Int) (f : Int → Int) (e : Range) (a b delta : Int) (before : Int → Int)
    (s : Scan) : Prop where
  inRange : s.inRange = false
  last : s.haveRange = true → q ∣ s.cur.start ∧ e.start ≤ s.cur.start ∧
    s.cur.start < s.cur.stop ∧ s.cur.stop ≤ e.stop ∧
    Output a b (Touched q f e.start s.cur.start) before delta s.ret ∧
    ∀ x, Touched q f e.start s.cur.start x ∨ s.cur.start ≤ x ∧ x < s.cur.stop ↔
      Touched q f e.start e.stop x
  none : s.haveRange = false → Output a b (Touched q f e.start e.stop) before delta s.ret

theorem Scanned.finished (h : Scanned q f e c a b delta before s) (window : Expanded q a b e)
    (shut : s.inRange = false) (zero : ∀ y, c ≤ y → y < e.stop → f y = 0) :
    Finished q f e a b delta before s := by
  obtain ⟨_, order, _, _, stopLe, _⟩ := h.closed shut
  refine ⟨shut, fun _ => ⟨h.aligned, h.start_ge, order, stopLe, h.output, ?_⟩, fun none =>
    absurd (h.haveRange.symm.trans none) nofun⟩
  exact h.touched_iff window.pos shut stopLe zero

theorem Initial.finished (h : Initial e c a b before s)
    (zero : ∀ y, c ≤ y → y < e.stop → f y = 0) : Finished q f e a b delta before s := by
  refine ⟨h.inRange, fun some => absurd (h.haveRange.symm.trans some) nofun, fun _ => ?_⟩
  refine h.output ?_
  rintro x ⟨y, low, high, pinned, _⟩
  exact pinned (zero y (h.position ▸ low) high)

theorem scanLast_spec (h : Initial e c a b before s ∨ Scanned q f e c a b delta before s)
    (window : Expanded q a b e) (isTransition : IsTransition f t) (front : c < e.stop)
    (behind : e.stop ≤ t.pos) (flat : ∀ y, c ≤ y → y < t.pos → f y = f c) :
    ∃ s', scanLast e t s = some s' ∧ Finished q f e a b delta before s' := by
  have pins : t.pins = f c := isTransition.2.1.trans (flat _ (by omega) (by omega))
  have opened : ∀ s, Scanned q f e c a b delta before s → s.inRange = true →
      ∃ s', scanLast e t s = some s' ∧ Finished q f e a b delta before s' := by
    intro s h isOpen
    obtain ⟨le, pinned, touched⟩ := h.opened isOpen
    rw [scanLast, if_pos isOpen, if_pos ⟨by omega, h.haveRange, by omega⟩]
    refine ⟨_, rfl, rfl, fun _ => ⟨h.aligned, h.start_ge, by dsimp only; omega, le_rfl,
      h.output, fun x => ⟨?_, ?_⟩⟩, fun none => absurd (h.haveRange.symm.trans none) nofun⟩
    · rintro (early | ⟨low, high⟩)
      · exact early.mono (by dsimp only; omega)
      · by_cases early : x ≤ c
        · exact (touched x low early).mono (by omega)
        · have startGe := h.start_ge
          refine ⟨x, by omega, high, ?_, rfl⟩
          rw [flat x (by omega) (by dsimp only at high; omega)]
          exact pinned
    · intro late
      rcases touched_split window.pos h.aligned late with early | after
      · exact .inl early
      · exact .inr ⟨after, late.lt window.pos window.end_aligned le_rfl⟩
  rcases h with init | h
  · by_cases pinned : f c = 0
    · rw [scanLast, if_neg (by rw [init.inRange]; exact nofun),
        if_neg (by rw [init.haveRange]; exact nofun), if_neg (by omega)]
      refine ⟨s, rfl, init.finished fun y low high => ?_⟩
      rw [flat y low (by omega), pinned]
    · obtain ⟨s', run, finished⟩ := opened _ (init.opened window pinned) rfl
      refine ⟨s', ?_, finished⟩
      have held : t.pins ≠ 0 := by omega
      rw [← run]
      simp [scanLast, held, init.inRange, init.haveRange, window.order.ne']
  · cases isOpen : s.inRange with
    | true => exact opened s h isOpen
    | false =>
      rw [scanLast, if_neg (by rw [isOpen]; exact nofun), if_pos h.haveRange]
      refine ⟨s, rfl, h.finished window isOpen fun y low high => ?_⟩
      rw [flat y low (by omega), (h.closed isOpen).1]

theorem scan_spec (counts : Counts rt.ranges f) (within : Within rt.ranges a b)
    (quantized : rt.quantization = q) (window : Expanded q a b e)
    (writable : Writable q f e before delta)
    (enough : rt.ranges.countP (fun u => t.pos < u.pos) < fuel) (low : e.start ≤ t.pos)
    (front : t.pos < e.stop)
    (h : Initial e t.pos a b before s ∨ Scanned q f e t.pos a b delta before s) :
    ∃ s', scan rt e delta fuel t s = some s' ∧ Finished q f e a b delta before s' := by
  have startGe := window.start_ge
  have stopLe := window.stop_le
  induction fuel generalizing t s with
  | zero => omega
  | succ fuel ih =>
    have agrees := within.agrees (t := t) window.narrow (by omega) (by omega)
    rw [scan]
    cases found : lookupGreater cmpTransition t rt.ranges with
    | none =>
      have none : ∀ u ∈ rt.ranges, u.pos ≤ t.pos := lookupGreater_eq_none agrees found
      have zero : ∀ y, t.pos ≤ y → f y = 0 := by
        intro y le
        have flat : f (max y (2 ^ 63)) = f y := counts.flat (le_max_left _ _)
          fun u mem lt => absurd (none u mem) (by omega)
        rw [← flat]
        exact counts.behind _ (le_max_right _ _)
      refine ⟨s, rfl, ?_⟩
      rcases h with init | h
      · exact init.finished fun y low _ => zero y low
      · refine h.finished window ?_ fun y low _ => zero y low
        refine Bool.eq_false_iff.mpr fun isOpen => ?_
        exact (h.opened isOpen).2.1 (zero t.pos le_rfl)
    | some u =>
      obtain ⟨mem, behind, least⟩ := lookupGreater_eq_some agrees counts.sorted found
      have behind : t.pos < u.pos := behind
      have isTransition := (counts.mem u).mp mem
      have flat : ∀ y, t.pos ≤ y → y < u.pos → f y = f t.pos := by
        intro y low high
        refine counts.flat low fun v hv lt => ?_
        have : u.pos ≤ v.pos := least v hv lt
        omega
      dsimp only
      rw [if_pos isTransition.1]
      by_cases last : e.stop ≤ u.pos
      · rw [if_pos last]
        exact scanLast_spec h window isTransition front last flat
      · have next : Next f e t.pos u :=
          ⟨isTransition, behind, by omega, flat, counts.nonneg, counts.lt⟩
        have step : ∃ s', scanNext q e delta u s = some s' ∧
            Scanned q f e u.pos a b delta before s' := by
          rcases h with init | h
          · exact scanNext_initial init window next
          · cases isOpen : s.inRange with
            | true => exact scanNext_opened h window next isOpen
            | false => exact scanNext_closed h window writable next isOpen
        obtain ⟨s', run, scanned⟩ := step
        have fewer := countP_lt mem behind
        rw [if_neg last, quantized, run, Option.bind_some]
        exact ih (by omega) (by omega) (by omega) (.inr scanned)

theorem pinnedRanges_spec (counts : Counts rt.ranges f) (within : Within rt.ranges a b)
    (window : Expanded rt.quantization a b e)
    (down : rangeTrackerRoundDown request.start rt.quantization = e.start)
    (up : rangeTrackerRoundUp request.stop rt.quantization = e.stop)
    (writable : Writable rt.quantization f e before delta) (retCounts : Counts ret before)
    (retWithin : Within ret a b) :
    ∃ ret', pinnedRanges rt request ret delta = some ret' ∧
      Output a b (Touched rt.quantization f e.start e.stop) before delta ret' := by
  have init : Initial e (key e.start).pos a b before ⟨false, false, ⟨0, 0⟩, ret⟩ :=
    ⟨rfl, rfl, rfl, retCounts, retWithin⟩
  obtain ⟨s, run, done⟩ := scan_spec counts within rfl window writable
    (Nat.lt_succ_of_le List.countP_le_length) le_rfl window.order (.inl init)
  rw [pinnedRanges, down, up]
  dsimp only
  rw [run, Option.bind_some, if_neg (by rw [done.inRange]; exact nofun)]
  cases have' : s.haveRange with
  | false => exact ⟨s.ret, rfl, done.none have'⟩
  | true =>
    obtain ⟨aligned, startGe, order, stopLe, output, same⟩ := done.last have'
    have ge := window.start_ge
    have fits := window.stop_le
    obtain ⟨ret', run', output'⟩ := output.emit window writable (by omega) order (by omega)
      (fun x early => early.lt window.pos aligned le_rfl)
      fun x low high => (same x).mp (.inr ⟨low, high⟩)
    exact ⟨ret', run', output'.congr same⟩

end Scan

end Stasis.RangeTracker
