import Stasis.RangeTracker

/-!
What a change of the pins of a range does to the transitions.

The transitions of a tracker encode a function from positions to pin counts: they are
the positions at which it changes. A change of a range goes through the transitions
from left to right. In between, the transitions up to some position encode the new
function and the others the old one.
-/
namespace Stasis.RangeTracker
open CompareList List

variable {f : Int → Int} {t : Transition}

theorem constant_between (le : a ≤ b) (flat : ∀ p, a < p → p ≤ b → f p = f (p - 1)) :
    f b = f a := by
  obtain ⟨n, rfl⟩ := Int.le.dest le
  induction n with
  | zero => rw [Int.natCast_zero, Int.add_zero]
  | succ n ih =>
    have step := flat (a + (n + 1 : Nat)) (by omega) (by omega)
    rw [step, show a + (n + 1 : Nat) - 1 = a + n by omega]
    exact ih (by omega) fun p low high => flat p low (by omega)

def IsTransition (f : Int → Int) (t : Transition) : Prop :=
  t.delta ≠ 0 ∧ t.pins = f (t.pos - 1) ∧ t.pins + t.delta = f t.pos

theorem IsTransition.ne (h : IsTransition f t) : f t.pos ≠ f (t.pos - 1) := by
  obtain ⟨nonzero, before, after⟩ := h
  omega

theorem isTransition_of_ne (ne : f p ≠ f (p - 1)) :
    IsTransition f ⟨p, f p - f (p - 1), f (p - 1)⟩ := by
  refine ⟨?_, rfl, ?_⟩ <;> dsimp only <;> omega

theorem IsTransition.unique (ht : IsTransition f t) (hu : IsTransition f u) (same : t.pos = u.pos) :
    t = u := by
  obtain ⟨_, before, after⟩ := ht
  obtain ⟨_, before', after'⟩ := hu
  rw [same] at before after
  cases t
  cases u
  simp only [Transition.mk.injEq] at *
  exact ⟨same, by omega, by omega⟩

theorem isTransition_congr (here : f t.pos = g t.pos) (before : f (t.pos - 1) = g (t.pos - 1)) :
    IsTransition f t ↔ IsTransition g t := by
  rw [IsTransition, IsTransition, here, before]

/-- The pins of a range changed by `delta`. -/
def changed (f : Int → Int) (r : Range) (delta : Int) (x : Int) : Int :=
  if r.start ≤ x ∧ x < r.stop then f x + delta else f x

theorem changed_inside (low : r.start ≤ x) (high : x < r.stop) :
    changed f r delta x = f x + delta :=
  if_pos ⟨low, high⟩

theorem changed_outside (out : x < r.start ∨ r.stop ≤ x) : changed f r delta x = f x :=
  if_neg (by omega)

/-- The transitions encode `g` up to the position `c`, and `f` behind it. -/
structure Mixed (ranges : List Transition) (f g : Int → Int) (c : Int) : Prop where
  sorted : ranges.Pairwise fun a b => a.pos < b.pos
  mem : ∀ t, t ∈ ranges ↔ if t.pos ≤ c then IsTransition g t else IsTransition f t

/-- The transitions are those of `f`. -/
structure Encodes (ranges : List Transition) (f : Int → Int) : Prop where
  sorted : ranges.Pairwise fun a b => a.pos < b.pos
  mem : ∀ t, t ∈ ranges ↔ IsTransition f t

section Mixed
variable {ranges : List Transition}

theorem Encodes.mixed (h : Encodes ranges f) (same : ∀ x, x ≤ c → g x = f x) :
    Mixed ranges f g c := by
  refine ⟨h.sorted, fun t => ?_⟩
  rw [h.mem]
  split
  · exact isTransition_congr (same _ (by omega)).symm (same _ (by omega)).symm
  · rfl

section
variable (h : Mixed ranges f g c)
include h

theorem Mixed.encodes (same : ∀ x, c ≤ x → g x = f x) : Encodes ranges g := by
  refine ⟨h.sorted, fun t => ?_⟩
  rw [h.mem]
  split
  · rfl
  · exact isTransition_congr (same _ (by omega)).symm (same _ (by omega)).symm

theorem Mixed.mem_of_ne (behind : c < p) (ne : f p ≠ f (p - 1)) :
    ⟨p, f p - f (p - 1), f (p - 1)⟩ ∈ ranges := by
  rw [h.mem, if_neg (not_le.mpr behind)]
  exact isTransition_of_ne ne

theorem Mixed.skip (le : c ≤ d) (none : ∀ t ∈ ranges, c < t.pos → d < t.pos)
    (alike : ∀ p, c < p → p ≤ d → f p = f (p - 1) → g p = g (p - 1)) : Mixed ranges f g d := by
  refine ⟨h.sorted, fun t => ?_⟩
  rw [h.mem]
  by_cases early : t.pos ≤ c
  · rw [if_pos early, if_pos (by omega)]
  · by_cases late : t.pos ≤ d
    · rw [if_neg early, if_pos late]
      have flat : f t.pos = f (t.pos - 1) := by
        by_contra ne
        have behind := none _ (h.mem_of_ne (by omega) ne) (by dsimp only; omega)
        dsimp only at behind
        omega
      have flat' := alike t.pos (by omega) late flat
      exact ⟨fun isT => absurd flat isT.ne, fun isT => absurd flat' isT.ne⟩
    · rw [if_neg early, if_neg late]

theorem Mixed.flat (le : c ≤ a) (le' : a ≤ b) (none : ∀ t ∈ ranges, a < t.pos → b < t.pos) :
    f b = f a := by
  refine constant_between le' fun p low high => ?_
  by_contra ne
  have behind := none _ (h.mem_of_ne (by omega) ne) low
  dsimp only at behind
  omega

end

theorem Encodes.flat (h : Encodes ranges f) (le : a ≤ b)
    (none : ∀ t ∈ ranges, a < t.pos → b < t.pos) : f b = f a :=
  (h.mixed (c := a) fun _ _ => rfl).flat (Int.le_refl a) le none

end Mixed

section Store
variable {ranges : List Transition}

theorem store_pos (t : Transition) (ranges : List Transition) :
    (store t ranges).map (·.pos) = ranges.map (·.pos) := by
  rw [store, map_map]
  refine map_congr_left fun u _ => ?_
  dsimp only [Function.comp]
  split
  · next same => exact same.symm
  · rfl

theorem sorted_store (sorted : ranges.Pairwise fun a b => a.pos < b.pos) :
    (store t ranges).Pairwise fun a b => a.pos < b.pos := by
  have positions := pairwise_map.mpr sorted
  rw [← store_pos t ranges] at positions
  exact pairwise_map.mp positions

theorem mem_store (old : Transition) (mem : old ∈ ranges) (same : old.pos = t.pos) :
    u ∈ store t ranges ↔ u = t ∨ u ∈ ranges ∧ u.pos ≠ t.pos := by
  rw [store, mem_map]
  constructor
  · rintro ⟨v, hv, rfl⟩
    split
    · exact .inl rfl
    · next ne => exact .inr ⟨hv, ne⟩
  · rintro (rfl | ⟨hu, ne⟩)
    · exact ⟨old, mem, if_pos same⟩
    · exact ⟨u, hu, if_neg ne⟩

theorem countP_store (t : Transition) (ranges : List Transition) (c : Int) :
    (store t ranges).countP (fun u => c < u.pos) = ranges.countP fun u => c < u.pos := by
  have positions := congrArg (List.countP fun p => decide (c < p)) (store_pos t ranges)
  rw [countP_map, countP_map] at positions
  exact positions

theorem countP_lt (mem : t ∈ ranges) (low : c < t.pos) :
    ranges.countP (fun u => t.pos < u.pos) < ranges.countP fun u => c < u.pos := by
  obtain ⟨front, back, rfl⟩ := append_of_mem mem
  have mono : ∀ l : List Transition,
      l.countP (fun u => t.pos < u.pos) ≤ l.countP fun u => c < u.pos := fun l =>
    countP_mono_left fun v _ h => by
      simp only [decide_eq_true_eq] at h ⊢
      omega
  have left := mono front
  have right := mono back
  simp only [countP_append, countP_cons, lt_irrefl, decide_false, decide_eq_true low, if_true,
    Bool.false_eq_true, if_false]
  omega

end Store

section Delta
variable {ranges : List Transition} {a b : Int}

/-- The transitions are in a window that is narrow enough for the comparison. -/
def Within (ranges : List Transition) (a b : Int) : Prop :=
  ∀ t ∈ ranges, a ≤ t.pos ∧ t.pos ≤ b

theorem toInt_of_range (low : -2147483648 ≤ v) (high : v < 2147483648) : toInt v = v := by
  rw [toInt, Int.bmod_def]
  split <;> omega

theorem cmpTransition_eq (low : -2147483648 ≤ t.pos - u.pos) (high : t.pos - u.pos < 2147483648) :
    cmpTransition t u = t.pos - u.pos := by
  rw [cmpTransition, toInt_of_range low high]

theorem Within.agrees (h : Within ranges a b) (narrow : b - a < 2147483648) (low : a ≤ t.pos)
    (high : t.pos ≤ b) : Agrees cmpTransition Transition.pos t ranges := by
  intro u mem
  have inside := h u mem
  rw [cmpTransition_eq (by omega) (by omega)]
  constructor <;> constructor <;> intro h <;> omega

theorem Within.store (h : Within ranges a b) (t : Transition) :
    Within (store t ranges) a b := by
  intro u mem
  have position : u.pos ∈ ranges.map (·.pos) := store_pos t ranges ▸ mem_map_of_mem mem
  obtain ⟨v, hv, same⟩ := mem_map.mp position
  exact same ▸ h v hv

end Delta

section Advance
variable {ranges after : List Transition}

theorem Mixed.advance (h : Mixed ranges f g (p - 1))
    (sorted : after.Pairwise fun a b => a.pos < b.pos)
    (others : ∀ u, u.pos ≠ p → (u ∈ after ↔ u ∈ ranges))
    (here : ∀ u, u.pos = p → (u ∈ after ↔ IsTransition g u)) : Mixed after f g p := by
  refine ⟨sorted, fun u => ?_⟩
  by_cases same : u.pos = p
  · rw [here u same, if_pos (by omega)]
  · rw [others u same, h.mem]
    by_cases early : u.pos ≤ p
    · rw [if_pos early, if_pos (by omega)]
    · rw [if_neg early, if_neg (by omega)]

theorem Mixed.insert (h : Mixed ranges f g (t.pos - 1)) (new : ∀ u ∈ ranges, u.pos ≠ t.pos)
    (isT : IsTransition g t) (within : Within ranges a b) (narrow : b - a < 2147483648)
    (low : a ≤ t.pos) (high : t.pos ≤ b) :
    Mixed (search cmpTransition t ranges) f g t.pos ∧ Within (search cmpTransition t ranges) a b := by
  have agrees := within.agrees narrow low high
  refine ⟨h.advance (sorted_search agrees new h.sorted) (fun u ne => ?_) fun u same => ?_,
    fun u mem => ?_⟩
  · rw [mem_search agrees new]
    exact or_iff_right fun eq => ne (congrArg Transition.pos eq)
  · rw [mem_search agrees new, or_iff_left fun mem => new u mem same]
    exact ⟨fun eq => eq ▸ isT, fun isU => isU.unique isT same⟩
  · rcases (mem_search agrees new).mp mem with rfl | old
    · exact ⟨low, high⟩
    · exact within u old

section
variable (h : Mixed ranges f g (t.pos - 1)) (mem : old ∈ ranges) (same : old.pos = t.pos)
include h mem same

theorem Mixed.replace (isT : IsTransition g t) : Mixed (store t ranges) f g t.pos := by
  refine h.advance (sorted_store h.sorted) (fun u ne => ?_) fun u here => ?_
  · rw [mem_store old mem same, or_iff_right fun eq => ne (congrArg Transition.pos eq),
      and_iff_left ne]
  · rw [mem_store old mem same, or_iff_left fun h => h.2 here]
    exact ⟨fun eq => eq ▸ isT, fun isU => isU.unique isT here⟩

theorem Mixed.remove (flat : g t.pos = g (t.pos - 1))
    (agrees : Agrees cmpTransition Transition.pos t (store t ranges)) :
    Mixed (delete cmpTransition t (store t ranges)) f g t.pos := by
  have sorted := sorted_store (t := t) h.sorted
  refine h.advance ?_ (fun u ne => ?_) fun u here => ?_
  · rw [delete_eq_filter agrees sorted]
    exact sorted.filter _
  · rw [mem_delete agrees sorted, and_iff_left ne, mem_store old mem same,
      or_iff_right fun eq => ne (congrArg Transition.pos eq), and_iff_left ne]
  · rw [mem_delete agrees sorted]
    constructor
    · exact fun h => absurd here h.2
    · intro isU
      have moves := isU.ne
      rw [here] at moves
      exact absurd flat moves

/-- The transition is stored, and deleted again if it changes nothing. -/
theorem Mixed.settle {β : Type} (k : List Transition → β) (pins : t.pins = g (t.pos - 1))
    (sum : t.pins + t.delta = g t.pos) (within : Within ranges a b) (narrow : b - a < 2147483648)
    (low : a ≤ t.pos) (high : t.pos ≤ b) :
    ∃ after, (if t.delta = 0 then k (delete cmpTransition t (store t ranges))
        else k (store t ranges)) = k after ∧ Mixed after f g t.pos ∧ Within after a b := by
  have stored := within.store t
  split
  · next gone =>
    have agrees := stored.agrees narrow low high
    refine ⟨_, rfl, h.remove mem same (by omega) agrees, fun u hu => ?_⟩
    exact stored u ((mem_delete agrees (sorted_store h.sorted)).mp hu).1
  · next kept => exact ⟨_, rfl, h.replace mem same ⟨kept, pins, sum⟩, stored⟩

end

end Advance

/-- The transitions encode a pin count. -/
structure Counts (ranges : List Transition) (f : Int → Int) : Prop extends Encodes ranges f where
  nonneg : ∀ x, 0 ≤ f x
  lt : ∀ x, f x < 2147483648
  before : ∀ x, x < 0 → f x = 0
  behind : ∀ x, 2 ^ 63 ≤ x → f x = 0

section Spec
variable {ranges : List Transition} {f : Int → Int} {r : Range} {delta a b : Int}

/-- A range in a narrow window, whose pins may be changed by `delta`. -/
structure Changeable (f : Int → Int) (r : Range) (delta a b : Int) : Prop where
  moves : delta ≠ 0
  order : r.start < r.stop
  low : 0 ≤ a
  narrow : b - a < 2147483648
  high : b < 2 ^ 63
  start_ge : a ≤ r.start
  stop_le : r.stop ≤ b
  nonneg : ∀ x, 0 ≤ changed f r delta x
  lt : ∀ x, changed f r delta x < 2147483648

theorem deltaStart_spec (h : Counts ranges f) (within : Within ranges a b)
    (ok : Changeable f r delta a b) :
    ∃ after, deltaStart ranges r delta = some (after, changed f r delta r.start) ∧
      Mixed after f (changed f r delta) r.start ∧ Within after a b := by
  have inside : changed f r delta r.start = f r.start + delta :=
    changed_inside le_rfl ok.order
  have outside : changed f r delta (r.start - 1) = f (r.start - 1) := changed_outside (by omega)
  have order := ok.order
  have startGe := ok.start_ge
  have stopLe := ok.stop_le
  have nonneg := ok.nonneg r.start
  have bound := ok.lt r.start
  have fNonneg := h.nonneg r.start
  have fBound := h.lt r.start
  have mixed : Mixed ranges f (changed f r delta) (r.start - 1) :=
    h.mixed fun x le => changed_outside (by omega)
  have agrees := within.agrees (t := key r.start) ok.narrow startGe (by dsimp only [key]; omega)
  rw [deltaStart]
  cases found : lookupLessEq cmpTransition (key r.start) ranges with
  | none =>
    have behind : ∀ u ∈ ranges, r.start < u.pos :=
      lookupLessEq_eq_none agrees h.sorted found
    have new : ∀ u ∈ ranges, u.pos ≠ r.start := fun u mem eq => absurd (behind u mem) (by omega)
    have zero : ∀ x, -1 ≤ x → x ≤ r.start → f x = 0 := by
      intro x low high
      rw [h.flat low fun u mem _ => by have := behind u mem; omega]
      exact h.before (-1) (by decide)
    have low := ok.low
    have here := zero r.start (by omega) le_rfl
    have front := zero (r.start - 1) (by omega) (by omega)
    have isT : IsTransition (changed f r delta) ⟨r.start, delta, 0⟩ :=
      ⟨ok.moves, by dsimp only; omega, by dsimp only; omega⟩
    dsimp only
    rw [show 0 + delta = changed f r delta r.start by omega,
      toInt_of_range (by omega) (by omega), if_pos (by omega)]
    exact ⟨_, rfl, mixed.insert new isT within ok.narrow startGe (by dsimp only; omega)⟩
  | some t =>
    obtain ⟨mem, le, last⟩ := lookupLessEq_eq_some agrees h.sorted found
    obtain ⟨nonzero, pins, sum⟩ := (h.mem t).mp mem
    have le : t.pos ≤ r.start := le
    have pinsNonneg := h.nonneg (t.pos - 1)
    have pinsBound := h.lt (t.pos - 1)
    have sumNonneg := h.nonneg t.pos
    have sumBound := h.lt t.pos
    dsimp only
    rw [toInt_of_range (v := t.pins + t.delta) (by omega) (by omega),
      if_pos ⟨nonzero, by omega, by omega⟩]
    by_cases here : t.pos = r.start
    · rw [if_neg (not_not_intro here)]
      rw [here] at pins sum pinsNonneg pinsBound
      rw [toInt_of_range (v := t.delta + delta) (by omega) (by omega),
        show t.pins + (t.delta + delta) = changed f r delta r.start by omega,
        toInt_of_range (v := changed f r delta r.start) (by omega) (by omega), if_pos (by omega)]
      rw [← here] at mixed startGe pins sum inside
      have sum : t.pins + (t.delta + delta) = changed f r delta t.pos := by omega
      obtain ⟨after, settled, mixed, within⟩ := Mixed.settle
        (t := { t with delta := t.delta + delta }) mixed mem rfl
        (fun l => some (l, changed f r delta r.start)) (pins.trans (here ▸ outside.symm)) sum within
        ok.narrow startGe (show t.pos ≤ b by omega)
      exact ⟨after, settled, here ▸ mixed, within⟩
    · rw [if_pos here, if_pos (by omega)]
      have new : ∀ u ∈ ranges, u.pos ≠ r.start := by
        intro u hu eq
        have : u.pos ≤ t.pos := last u hu (le_of_eq eq)
        omega
      have none : ∀ x, x ≤ r.start → ∀ u ∈ ranges, t.pos < u.pos → x < u.pos := by
        intro x high u hu behind
        by_contra early
        have : u.pos ≤ t.pos := last u hu (show u.pos ≤ r.start by omega)
        omega
      have now := h.flat le (none _ le_rfl)
      have front := h.flat (show t.pos ≤ r.start - 1 by omega) (none _ (by omega))
      have isT : IsTransition (changed f r delta) ⟨r.start, delta, t.pins + t.delta⟩ :=
        ⟨ok.moves, by dsimp only; omega, by dsimp only; omega⟩
      rw [show t.pins + t.delta + delta = changed f r delta r.start by omega,
        toInt_of_range (by omega) (by omega)]
      exact ⟨_, rfl, mixed.insert new isT within ok.narrow startGe (by dsimp only; omega)⟩

/-- What the loop over the inner transitions leaves: the transition that it returns is the one at
the stop of the range, if there is one. -/
structure Passed (f : Int → Int) (r : Range) (delta a b : Int) (after : List Transition)
    (next : Option Transition) : Prop where
  mixed : Mixed after f (changed f r delta) (r.stop - 1)
  within : Within after a b
  mem : ∀ t, next = some t → t ∈ after
  least : ∀ u ∈ after, u.pos = r.stop → next = some u

section
variable (mixed : Mixed ranges f (changed f r delta) t.pos) (within : Within ranges a b)
  (low : r.start ≤ t.pos) (high : t.pos < r.stop)
include mixed within low high

theorem deltaInner_end (next : Option Transition)
    (none : ∀ u ∈ ranges, t.pos < u.pos → r.stop ≤ u.pos) (mem : ∀ u, next = some u → u ∈ ranges)
    (least : ∀ u ∈ ranges, u.pos = r.stop → next = some u) :
    changed f r delta t.pos = changed f r delta (r.stop - 1) ∧
      Passed f r delta a b ranges next := by
  have behind : ∀ u ∈ ranges, t.pos < u.pos → r.stop - 1 < u.pos := by
    intro u hu lt
    have := none u hu lt
    omega
  have flat := mixed.flat le_rfl (show t.pos ≤ r.stop - 1 by omega) behind
  refine ⟨?_, mixed.skip (by omega) behind fun p front back same => ?_, within, mem, least⟩
  · rw [changed_inside low high, changed_inside (by omega) (by omega), flat]
  · rw [changed_inside (by omega) (by omega), changed_inside (by omega) (by omega), same]

theorem deltaInner_spec (ok : Changeable f r delta a b)
    (enough : ranges.countP (fun u => t.pos < u.pos) < fuel) :
    ∃ after next, deltaInner r delta fuel ranges t (changed f r delta t.pos) =
        some (after, next, changed f r delta (r.stop - 1)) ∧ Passed f r delta a b after next := by
  have startGe := ok.start_ge
  have stopLe := ok.stop_le
  induction fuel generalizing ranges t with
  | zero => omega
  | succ fuel ih =>
    have agrees := within.agrees (t := t) ok.narrow (by omega) (by omega)
    rw [deltaInner]
    cases found : lookupGreater cmpTransition t ranges with
    | none =>
      have front := lookupGreater_eq_none agrees found
      obtain ⟨same, passed⟩ := deltaInner_end mixed within low high none
        (fun u hu lt => absurd lt (not_lt.mpr (front u hu))) (fun u eq => nomatch eq)
        fun u hu eq => absurd (front u hu) (by omega)
      exact ⟨ranges, none, by rw [same], passed⟩
    | some u =>
      obtain ⟨mem, behind, least⟩ := lookupGreater_eq_some agrees mixed.sorted found
      have behind : t.pos < u.pos := behind
      have least : ∀ v ∈ ranges, t.pos < v.pos → u.pos ≤ v.pos := least
      dsimp only
      by_cases inner : u.pos < r.stop
      · have isU := (mixed.mem u).mp mem
        rw [if_neg (by omega)] at isU
        obtain ⟨nonzero, pins, sum⟩ := isU
        have none : ∀ v ∈ ranges, t.pos < v.pos → u.pos - 1 < v.pos := by
          intro v hv lt
          have := least v hv lt
          omega
        have flat := mixed.flat le_rfl (show t.pos ≤ u.pos - 1 by omega) none
        have now : changed f r delta t.pos = f t.pos + delta := changed_inside low high
        have front : changed f r delta (u.pos - 1) = f (u.pos - 1) + delta :=
          changed_inside (by omega) (by omega)
        have here : changed f r delta u.pos = f u.pos + delta :=
          changed_inside (by omega) inner
        have nonneg := ok.nonneg u.pos
        have bound := ok.lt u.pos
        have frontNonneg := ok.nonneg (u.pos - 1)
        have frontBound := ok.lt (u.pos - 1)
        rw [if_pos inner, toInt_of_range (v := u.pins + delta) (by omega) (by omega),
          toInt_of_range (v := u.pins + delta + u.delta) (by omega) (by omega),
          if_pos ⟨nonzero, by omega, by omega⟩]
        have isT : IsTransition (changed f r delta) { u with pins := u.pins + delta } :=
          ⟨nonzero, by dsimp only; omega, by dsimp only; omega⟩
        have skipped : Mixed ranges f (changed f r delta) (u.pos - 1) := by
          refine mixed.skip (by omega) none fun p low' high' same => ?_
          rw [changed_inside (by omega) (by omega), changed_inside (by omega) (by omega), same]
        have replaced := Mixed.replace (t := { u with pins := u.pins + delta }) skipped mem rfl
          isT
        have fewer := countP_lt mem behind
        obtain ⟨after, next, run, passed⟩ :=
          ih (t := { u with pins := u.pins + delta }) replaced (within.store _)
            (by dsimp only; omega) inner (by rw [countP_store]; dsimp only; omega)
        refine ⟨after, next, ?_, passed⟩
        rw [show u.pins + delta + u.delta = changed f r delta u.pos by omega]
        exact run
      · rw [if_neg inner]
        have unique : ∀ v ∈ ranges, v.pos = r.stop → some u = some v := by
          intro v hv eq
          have first := least v hv (by omega)
          have isU := (mixed.mem u).mp mem
          have isV := (mixed.mem v).mp hv
          rw [if_neg (by omega)] at isU isV
          rw [isU.unique isV (by omega)]
        obtain ⟨same, passed⟩ := deltaInner_end mixed within low high (some u)
          (fun v hv lt => by have := least v hv lt; omega)
          (fun v eq => Option.some.inj eq ▸ mem) unique
        exact ⟨ranges, some u, by rw [same], passed⟩

end

theorem deltaStop_spec (h : Counts before f) (ok : Changeable f r delta a b)
    {next : Option Transition} (passed : Passed f r delta a b ranges next) :
    ∃ after, deltaStop ranges next r delta (changed f r delta (r.stop - 1)) = some after ∧
      Encodes after (changed f r delta) := by
  have order := ok.order
  have startGe := ok.start_ge
  have stopLe := ok.stop_le
  have moves := ok.moves
  have nonneg := ok.nonneg (r.stop - 1)
  have bound := ok.lt (r.stop - 1)
  have hereNonneg := ok.nonneg r.stop
  have hereBound := ok.lt r.stop
  have oldNonneg := h.nonneg (r.stop - 1)
  have oldBound := h.lt (r.stop - 1)
  have front : changed f r delta (r.stop - 1) = f (r.stop - 1) + delta :=
    changed_inside (by omega) (by omega)
  have here : changed f r delta r.stop = f r.stop := changed_outside (by omega)
  have same : ∀ x, r.stop ≤ x → changed f r delta x = f x := fun x le => changed_outside (.inr le)
  have mixed := passed.mixed
  rw [deltaStop]
  by_cases stored : ∃ t, next = some t ∧ t.pos = r.stop
  · obtain ⟨t, rfl, position⟩ := stored
    have mem := passed.mem t rfl
    have isT := (mixed.mem t).mp mem
    rw [if_neg (by omega)] at isT
    obtain ⟨nonzero, pins, sum⟩ := isT
    rw [position] at pins sum
    have kept : (some t).filter (fun t => t.pos = r.stop) = some t :=
      if_pos (decide_eq_true position)
    rw [kept]
    dsimp only
    rw [toInt_of_range (v := t.pins + delta) (by omega) (by omega),
      toInt_of_range (v := t.delta - delta) (by omega) (by omega), if_pos (by omega)]
    have pins : t.pins + delta = changed f r delta (t.pos - 1) := by rw [position]; omega
    have sum : t.pins + delta + (t.delta - delta) = changed f r delta t.pos := by
      rw [position]
      omega
    obtain ⟨after, settled, mixed, _⟩ := Mixed.settle
      (t := { t with pins := t.pins + delta, delta := t.delta - delta }) (position ▸ mixed) mem rfl
      some pins sum passed.within ok.narrow (show a ≤ t.pos by omega) (show t.pos ≤ b by omega)
    exact ⟨after, settled, Mixed.encodes (c := r.stop) (position ▸ mixed) same⟩
  · have new : ∀ u ∈ ranges, u.pos ≠ r.stop := fun u hu eq => stored ⟨u, passed.least u hu eq, eq⟩
    have none : next.filter (fun t => t.pos = r.stop) = none := by
      refine Option.filter_eq_none_iff.mpr fun t eq => ?_
      exact fun position => stored ⟨t, eq, of_decide_eq_true position⟩
    have flat : f r.stop = f (r.stop - 1) := by
      by_contra ne
      exact new _ (mixed.mem_of_ne (by omega) ne) rfl
    have isT : IsTransition (changed f r delta)
        ⟨r.stop, 0 - delta, changed f r delta (r.stop - 1)⟩ :=
      ⟨by dsimp only; omega, rfl, by dsimp only; omega⟩
    rw [none]
    dsimp only
    rw [toInt_of_range (v := 0 - delta) (by omega) (by omega), if_pos nonneg]
    exact ⟨_, rfl, Mixed.encodes (mixed.insert new isT passed.within ok.narrow (by dsimp only; omega)
      stopLe).1 same⟩

/-- A transition of the changed function is one of the function before, or at an end of the
range. -/
theorem Encodes.within_changed {after : List Transition} (h : Encodes ranges f)
    (within : Within ranges a b) (startGe : a ≤ r.start) (stopLe : r.stop ≤ b)
    (new : Encodes after (changed f r delta)) : Within after a b := by
  intro t mem
  have moves := ((new.mem t).mp mem).ne
  by_cases old : f t.pos = f (t.pos - 1)
  · rw [changed, changed] at moves
    split at moves <;> split at moves <;> omega
  · have inside := within _ ((h.mem _).mpr (isTransition_of_ne old))
    exact inside

theorem rangeTrackerDelta_spec (h : Counts ranges f) (within : Within ranges a b)
    (ok : Changeable f r delta a b) :
    ∃ after, rangeTrackerDelta ranges r delta = some after ∧ Counts after (changed f r delta) ∧
      Within after a b := by
  obtain ⟨started, run, mixed, within₁⟩ := deltaStart_spec h within ok
  have enough : started.countP (fun u => (key r.start).pos < u.pos) < started.length + 1 :=
    Nat.lt_succ_of_le countP_le_length
  obtain ⟨passed, next, run', inner⟩ :=
    deltaInner_spec mixed within₁ le_rfl ok.order ok enough
  obtain ⟨after, run'', encodes⟩ := deltaStop_spec h ok inner
  have order := ok.order
  have low := ok.low
  have high := ok.high
  have startGe := ok.start_ge
  have stopLe := ok.stop_le
  refine ⟨after, ?_, ⟨encodes, ok.nonneg, ok.lt, fun x lt => ?_, fun x le => ?_⟩,
    h.within_changed within startGe stopLe encodes⟩
  · rw [rangeTrackerDelta, if_pos ⟨ok.moves, order⟩, run, Option.bind_some]
    exact Option.bind_eq_some_iff.mpr ⟨_, run', run''⟩
  · rw [changed_outside (.inl (by omega)), h.before x lt]
  · rw [changed_outside (.inr (by omega)), h.behind x le]

end Spec

end Stasis.RangeTracker
