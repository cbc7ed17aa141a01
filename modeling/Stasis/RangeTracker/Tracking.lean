import Stasis.RangeTracker.Report

/-!
Sequences of calls on a range tracker.

As long as the range of each call and the positions that are pinned at that time are in an
aligned window that is narrower than 2^31 and no position is pinned 2^31 times, no assertion
fails, the transitions encode the pin counts and the calls report the blocks that change
their state. Outside of such a window the comparison of the search tree does not order the
positions.
-/
namespace Stasis.RangeTracker
open CompareList List

inductive Op where
  | add (r : Range)
  | remove (r : Range)

namespace Op

def range : Op → Range
  | .add r => r
  | .remove r => r

def delta : Op → Int
  | .add _ => 1
  | .remove _ => -1

def run (rt : RangeTracker) : Op → Option (RangeTracker × List Range)
  | .add r => rangeTrackerAdd rt r
  | .remove r => rangeTrackerRemove rt r

/-- How much the call changes the pins of position `x`. -/
def pins (op : Op) (x : Int) : Int :=
  if op.range.start ≤ x ∧ x < op.range.stop then op.delta else 0

/-- A range of positions, which is pinned if it is removed. -/
def Allowed (f : Int → Int) (op : Op) : Prop :=
  0 ≤ op.range.start ∧ op.range.start < op.range.stop ∧ op.range.stop < 2 ^ 63 ∧
    ∀ x, op.range.start ≤ x → x < op.range.stop → 0 ≤ f x + op.delta

/-- The range and the positions that are pinned are in a window, and no position is pinned too
often. -/
def Narrow (q : Int) (f : Int → Int) (op : Op) : Prop :=
  ∃ a b, Window q a b ∧ a ≤ op.range.start ∧ op.range.stop ≤ b ∧
    (∀ x, f x ≠ 0 → a ≤ x ∧ x < b) ∧ ∀ x, changed f op.range op.delta x < 2147483648

/-- The blocks that change from unpinned to pinned by an added range, or from pinned to unpinned
by a removed one. -/
def Reports (q : Int) (f after : Int → Int) (x : Int) : Op → Prop
  | .add _ => ¬ BlockPinned q f x ∧ BlockPinned q after x
  | .remove _ => BlockPinned q f x ∧ ¬ BlockPinned q after x

end Op

/-- The number of ranges that were added over position `x`, less those that were removed. -/
def pinCount (ops : List Op) (x : Int) : Int := (ops.map fun op => op.pins x).sum

theorem pinCount_append (ops : List Op) (op : Op) :
    pinCount (ops ++ [op]) = changed (pinCount ops) op.range op.delta := by
  funext x
  rw [pinCount, map_append, sum_append, map_singleton, sum_singleton, Op.pins,
    changed, ← pinCount]
  split
  · rfl
  · exact Int.add_zero _

def runAll (quantization : Int) (ops : List Op) : Option RangeTracker :=
  ops.foldlM (fun rt op => (op.run rt).map Prod.fst) (init quantization)

/-- Every call is made where the pins allow it. -/
def EachCall (P : (Int → Int) → Op → Prop) (ops : List Op) : Prop :=
  ∀ front op back, ops = front ++ op :: back → P (pinCount front) op

/-- Every call is one that a caller may make. -/
abbrev Legal : List Op → Prop := EachCall Op.Allowed

section Runs
variable {op : Op}

theorem EachCall.front (h : EachCall P (ops ++ [op])) : EachCall P ops := by
  intro front op' back eq
  refine h front op' (back ++ [op]) ?_
  rw [eq, append_assoc, cons_append]

theorem EachCall.append (h : EachCall P ops) (allowed : P (pinCount ops) op) :
    EachCall P (ops ++ [op]) := by
  intro front op' back eq
  cases back using List.reverseRecOn with
  | nil =>
    obtain ⟨rfl, same⟩ := append_inj' eq rfl
    cases same
    exact allowed
  | append_singleton back last =>
    rw [← cons_append, ← append_assoc] at eq
    exact h front op' back (append_inj' eq rfl).1

theorem pinCount_le_length (ops : List Op) (x : Int) : pinCount ops x ≤ ops.length := by
  induction ops with
  | nil => exact Int.le_refl 0
  | cons op ops ih =>
    have step : op.pins x ≤ 1 := by
      rw [Op.pins]
      split
      · cases op with
        | add r => exact Int.le_refl 1
        | remove r => exact (by decide : (-1 : Int) ≤ 1)
      · decide
    rw [pinCount, map_cons, sum_cons, ← pinCount, length_cons]
    omega

/-- The pins change at a transition, so that those on one side of it are not zero. -/
theorem Counts.within (h : Counts l f) (pinned : ∀ x, f x ≠ 0 → a ≤ x ∧ x < b) :
    Within l a b := by
  intro t mem
  obtain ⟨changes, pins, sum⟩ := (h.mem t).mp mem
  have here := pinned t.pos
  have front := pinned (t.pos - 1)
  omega

theorem Op.run_spec (counts : Counts rt.ranges f) (allowed : op.Allowed f)
    (narrow : op.Narrow rt.quantization f) : ∃ rt' l, op.run rt = some (rt', l) ∧
      rt'.quantization = rt.quantization ∧ Counts rt'.ranges (changed f op.range op.delta) ∧
      Spans l fun x => op.Reports rt.quantization f (changed f op.range op.delta) x := by
  obtain ⟨_, order, _, pinned⟩ := allowed
  obtain ⟨a, b, window, startGe, stopLe, inside, few⟩ := narrow
  have tracks : Tracks rt rt.quantization a b f := ⟨rfl, counts, counts.within inside⟩
  obtain ⟨rt', l, run, after, spans⟩ : ∃ rt' l, op.run rt = some (rt', l) ∧
      Tracks rt' rt.quantization a b (changed f op.range op.delta) ∧
      Spans l fun x => op.Reports rt.quantization f (changed f op.range op.delta) x := by
    cases op with
    | add r => exact rangeTrackerAdd_spec tracks window startGe order stopLe few
    | remove r =>
      refine rangeTrackerRemove_spec tracks window startGe order stopLe fun x low high => ?_
      have left : 0 ≤ f x + -1 := pinned x low high
      omega
  exact ⟨rt', l, run, after.quantization, after.counts, spans⟩

theorem runAll_counts (legal : Legal ops) (narrow : EachCall (Op.Narrow q) ops) :
    ∃ rt, runAll q ops = some rt ∧ rt.quantization = q ∧ Counts rt.ranges (pinCount ops) := by
  induction ops using List.reverseRecOn with
  | nil => exact ⟨init q, rfl, rfl, counts_nil⟩
  | append_singleton ops op ih =>
    obtain ⟨rt, run, rfl, counts⟩ := ih legal.front narrow.front
    obtain ⟨rt', l, run', same, counts', _⟩ :=
      Op.run_spec counts (legal ops op [] rfl) (narrow ops op [] rfl)
    refine ⟨rt', ?_, same, pinCount_append .. ▸ counts'⟩
    rw [runAll, foldlM_append]
    refine Option.bind_eq_some_iff.mpr ⟨rt, run, ?_⟩
    rw [foldlM_cons, run']
    rfl

end Runs

section Encoding
variable {ranges : List Transition}

theorem Rest.pins_eq (h : Rest (front ++ t :: back) g c) :
    t.pins = g c + (front.map (·.delta)).sum := by
  induction front generalizing c with
  | nil =>
    have front := ((h.mem t).mp mem_cons_self).2
    rw [((h.mem t).mp mem_cons_self).1.2.1, h.head (by omega) (by omega)]
    exact (Int.add_zero _).symm
  | cons u front ih =>
    obtain ⟨⟨_, pins, sum⟩, behind⟩ := (h.mem u).mp mem_cons_self
    rw [h.head (by omega) (by omega)] at pins
    rw [ih h.tail, map_cons, sum_cons]
    omega

/-- The pins behind the last transition at or before `x`. -/
def pinsAt (ranges : List Transition) (x : Int) : Int :=
  match (ranges.filter fun t => t.pos ≤ x).getLast? with
  | none => 0
  | some t => t.pins + t.delta

theorem Counts.pinsAt_eq (h : Counts ranges g) (x : Int) : pinsAt ranges x = g x := by
  have mem : ∀ u, u ∈ ranges.filter (fun t => t.pos ≤ x) ↔ u ∈ ranges ∧ u.pos ≤ x := by
    intro u
    rw [mem_filter, decide_eq_true_eq]
  rw [pinsAt]
  cases last : (ranges.filter fun t => t.pos ≤ x).getLast? with
  | none =>
    rw [getLast?_eq_none_iff] at last
    rw [last] at mem
    have none : ∀ u ∈ ranges, x < u.pos := by
      intro u hu
      by_contra early
      exact absurd ((mem u).mpr ⟨hu, by omega⟩) not_mem_nil
    rw [h.flat (a := min x (-1)) (min_le_left _ _) fun u hu _ => none u hu]
    exact (h.before _ (by omega)).symm
  | some t =>
    obtain ⟨front, eq⟩ := getLast?_eq_some_iff.mp last
    have sorted := h.sorted.sublist (filter_sublist (p := fun t => decide (t.pos ≤ x)))
    rw [eq] at mem sorted
    obtain ⟨ht, le⟩ := (mem t).mp (mem_append_right _ mem_cons_self)
    dsimp only
    rw [((h.mem t).mp ht).2.2]
    refine (h.flat le fun u hu behind => ?_).symm
    by_contra early
    rcases mem_append.mp ((mem u).mpr ⟨hu, by omega⟩) with first | same
    · have := (pairwise_append.mp sorted).2.2 u first t mem_cons_self
      omega
    · rw [mem_singleton.mp same] at behind
      omega

end Encoding

/-- In narrow windows, the transitions encode the pin counts of every sequence of calls. -/
theorem range_tracker_encodes_pins {q : Int} {ops : List Op} (legal : Legal ops)
    (narrow : EachCall (Op.Narrow q) ops) :
    ∃ rt, runAll q ops = some rt ∧ (rt.ranges.Pairwise fun t u => t.pos < u.pos) ∧
      (∀ t ∈ rt.ranges, t.delta ≠ 0) ∧
      (∀ front t back, rt.ranges = front ++ t :: back → t.pins = (front.map (·.delta)).sum) ∧
      ∀ x, pinCount ops x = pinsAt rt.ranges x := by
  obtain ⟨rt, run, _, counts⟩ := runAll_counts legal narrow
  refine ⟨rt, run, counts.sorted, fun t mem => ((counts.mem t).mp mem).1, ?_,
    fun x => (counts.pinsAt_eq x).symm⟩
  intro front t back eq
  have rest := counts.rest
  rw [eq] at rest
  rw [rest.pins_eq, counts.before (-1) (by decide), Int.zero_add]

theorem narrow_hundred (inside : ∀ op ∈ ops, 0 ≤ op.range.start ∧ op.range.stop ≤ 100)
    (few : ops.length < 2147483648) : EachCall (Op.Narrow 4) ops := by
  rintro front op back rfl
  obtain ⟨low, high⟩ := inside op (mem_append_right _ mem_cons_self)
  refine ⟨0, 100, ⟨by decide, by decide, by decide, by decide, by decide, by decide⟩, low, high,
    fun x pinned => ?_, fun x => ?_⟩
  · by_contra out
    refine pinned (sum_eq_zero fun v mem => ?_)
    obtain ⟨op', held, rfl⟩ := mem_map.mp mem
    have := inside op' (mem_append_left _ held)
    exact if_neg (by omega)
  · have bound := pinCount_le_length (front ++ [op]) x
    rw [pinCount_append, length_append] at bound
    rw [length_append] at few
    simp only [length_cons, length_nil] at bound few
    omega

theorem legal_add (h : Legal ops) (low : 0 ≤ r.start) (order : r.start < r.stop)
    (high : r.stop < 2 ^ 63) (nonneg : ∀ x, 0 ≤ pinCount ops x) : Legal (ops ++ [.add r]) := by
  refine h.append ⟨low, order, high, fun x _ _ => ?_⟩
  have := nonneg x
  show 0 ≤ pinCount ops x + 1
  omega

theorem legal_nil : Legal [] := by
  intro front op back eq
  cases front <;> cases eq

theorem pinCount_adds (ops : List Op) (adds : ∀ op ∈ ops, op.delta = 1) (x : Int) :
    0 ≤ pinCount ops x := by
  refine sum_nonneg fun v mem => ?_
  obtain ⟨op, hop, rfl⟩ := mem_map.mp mem
  rw [Op.pins, adds op hop]
  split <;> decide

def twoAdds : List Op := [.add ⟨1, 10⟩, .add ⟨3, 23⟩]

theorem legal_twoAdds : Legal twoAdds := by
  have first : Legal [.add ⟨1, 10⟩] :=
    legal_add (r := ⟨1, 10⟩) legal_nil (by decide) (by decide) (by decide)
      (pinCount_adds [] (by decide))
  exact legal_add (r := ⟨3, 23⟩) first (by decide) (by decide) (by decide)
    (pinCount_adds [.add ⟨1, 10⟩] (by decide))

/-- Two ranges that overlap. -/
theorem range_tracker_encodes_pins_overlap :
    ∃ rt, runAll 4 twoAdds = some rt ∧ pinsAt rt.ranges 5 = 2 ∧ pinsAt rt.ranges 22 = 1 := by
  obtain ⟨rt, run, _, _, _, counts⟩ :=
    range_tracker_encodes_pins legal_twoAdds (narrow_hundred (by decide) (by decide))
  exact ⟨rt, run, (counts 5).symm, (counts 22).symm⟩

/-- The positions 0 and 2^32 are equal for the comparison. The end of the range is not stored. -/
theorem range_end_not_stored :
    Legal [.add ⟨0, 2 ^ 32⟩] ∧ pinCount [.add ⟨0, 2 ^ 32⟩] (2 ^ 32) = 0 ∧
      ∃ rt, runAll 1 [.add ⟨0, 2 ^ 32⟩] = some rt ∧ rt.ranges = [⟨0, 1, 0⟩] ∧
        pinsAt rt.ranges (2 ^ 32) = 1 := by
  exact ⟨legal_add (r := ⟨0, 2 ^ 32⟩) legal_nil (by decide) (by decide) (by decide)
    (pinCount_adds [] (by decide)), by decide, by decide +kernel⟩

/-- In narrow windows, every call reports the blocks that change their state, as aligned ranges
that are increasing and disjoint. -/
theorem range_tracker_reports_blocks {q : Int} {ops : List Op} {op : Op}
    (legal : Legal (ops ++ [op])) (narrow : EachCall (Op.Narrow q) (ops ++ [op])) :
    ∃ rt rt' l, runAll q ops = some rt ∧ op.run rt = some (rt', l) ∧
      (l.Pairwise fun r r' => r.stop < r'.start) ∧
      (∀ r ∈ l, r.start < r.stop ∧ q ∣ r.start ∧ q ∣ r.stop) ∧
      ∀ x, (∃ r ∈ l, r.start ≤ x ∧ x < r.stop) ↔
        op.Reports q (pinCount ops) (pinCount (ops ++ [op])) x := by
  obtain ⟨rt, run, rfl, counts⟩ := runAll_counts legal.front narrow.front
  have last := narrow ops op [] rfl
  obtain ⟨rt', l, run', _, _, spans⟩ := Op.run_spec counts (legal ops op [] rfl) last
  obtain ⟨_, _, window, _⟩ := last
  rw [pinCount_append]
  refine ⟨rt, rt', l, run, run', spans.apart, fun r mem => ⟨spans.order r mem, ?_⟩,
    fun x => (spans.covers x).symm⟩
  refine spans.aligned window.pos (fun x y block report => ?_) mem
  cases op with
  | add r => exact ⟨fun h => report.1 (h.block block.symm), report.2.block block⟩
  | remove r => exact ⟨report.1.block block, fun h => report.2 (h.block block.symm)⟩

/-- The second range adds the blocks from 12 on. -/
theorem range_tracker_reports_blocks_overlap :
    ∃ rt rt' l, runAll 4 [.add ⟨1, 10⟩] = some rt ∧
      (Op.add ⟨3, 23⟩).run rt = some (rt', l) ∧ (∃ r ∈ l, r.start ≤ 15 ∧ 15 < r.stop) ∧
      ∀ r ∈ l, 4 ∣ r.start ∧ 4 ∣ r.stop := by
  have legal : Legal ([.add ⟨1, 10⟩] ++ [.add ⟨3, 23⟩]) := legal_twoAdds
  obtain ⟨rt, rt', l, run, run', _, aligned, reports⟩ :=
    range_tracker_reports_blocks legal (narrow_hundred (by decide) (by decide))
  refine ⟨rt, rt', l, run, run', (reports 15).mpr ⟨?_, 15, rfl, by decide⟩, fun r mem =>
    (aligned r mem).2⟩
  rintro ⟨y, block, pinned⟩
  refine pinned ?_
  simp only [pinCount, map_singleton, sum_singleton, Op.pins, Op.range]
  exact if_neg (by omega)

/-- The positions 1 and 2^31 are less than 2^31 apart, but not when they are rounded to blocks of
four. An assertion fails when the blocks are read back. -/
theorem add_fails_after_rounding :
    Legal [.add ⟨1, 2 ^ 31⟩] ∧ runAll 4 [] = some (init 4) ∧
      (Op.add ⟨1, 2 ^ 31⟩).run (init 4) = none :=
  ⟨legal_add (r := ⟨1, 2 ^ 31⟩) legal_nil (by decide) (by decide) (by decide)
    (pinCount_adds [] (by decide)), rfl, by decide +kernel⟩

end Stasis.RangeTracker
