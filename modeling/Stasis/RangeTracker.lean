import Stasis.Library.CompareList

/-!
The range tracker.

A tracker counts how often each position of a file is pinned. It stores the positions
at which the count changes, in a search tree that is ordered by position; the tree is
modelled by the list of its elements in order. When the comparison does not order the
positions, what a search finds depends on the shape of the tree. For a tree of at most
one element there is only one shape.

A function gives `none` where an assertion of the source fails, or a loop does not end.
-/
namespace Stasis
open CompareList

structure Range where
  start : Int
  stop : Int
deriving DecidableEq, Repr

/-- From `pos` on, positions are pinned `pins + delta` times, and `pins` times before it. -/
structure Transition where
  pos : Int
  delta : Int
  pins : Int
deriving DecidableEq, Repr

structure RangeTracker where
  ranges : List Transition
  quantization : Int

namespace RangeTracker

/-- The value of an int. -/
def toInt (v : Int) : Int := v.bmod (2 ^ 32)

/-- The difference of two longs is returned as an int. -/
def cmpTransition (a b : Transition) : Int := toInt (a.pos - b.pos)

def init (quantization : Int) : RangeTracker := ⟨[], quantization⟩

/-- Only the position of a key is read. -/
def key (pos : Int) : Transition := ⟨pos, 0, 0⟩

/-- Write to the transition that is stored at the position of `t`. -/
def store (t : Transition) (ranges : List Transition) : List Transition :=
  ranges.map fun u => if u.pos = t.pos then t else u

/-- The change at the start of a range, with the pins that follow it. -/
def deltaStart (ranges : List Transition) (r : Range) (delta : Int) :
    Option (List Transition × Int) :=
  match lookupLessEq cmpTransition (key r.start) ranges with
  | some t =>
    if t.delta ≠ 0 ∧ 0 ≤ t.pins ∧ 0 ≤ toInt (t.pins + t.delta) then
      if t.pos ≠ r.start then
        let newpins := toInt (t.pins + t.delta)
        if 0 ≤ newpins then
          some (search cmpTransition ⟨r.start, delta, newpins⟩ ranges, toInt (newpins + delta))
        else none
      else
        let t := { t with delta := toInt (t.delta + delta) }
        let curpin := toInt (t.pins + t.delta)
        if 0 ≤ curpin then
          if t.delta = 0 then some (delete cmpTransition t (store t ranges), curpin)
          else some (store t ranges, curpin)
        else none
    else none
  | none =>
    let curpin := toInt (0 + delta)
    if 0 ≤ curpin then
      some (search cmpTransition ⟨r.start, delta, 0⟩ ranges, curpin)
    else none

/-- The changes behind `t` and in front of the stop of a range. The result has the transition at
or behind the stop, and the pins in front of it. -/
def deltaInner (r : Range) (delta : Int) : Nat → List Transition → Transition → Int →
    Option (List Transition × Option Transition × Int)
  | 0, _, _, _ => none
  | fuel + 1, ranges, t, curpin =>
    match lookupGreater cmpTransition t ranges with
    | none => some (ranges, none, curpin)
    | some t =>
      if t.pos < r.stop then
        let t := { t with pins := toInt (t.pins + delta) }
        if t.delta ≠ 0 ∧ t.pins = curpin ∧ 0 ≤ toInt (t.pins + t.delta) then
          deltaInner r delta fuel (store t ranges) t (toInt (t.pins + t.delta))
        else none
      else some (ranges, some t, curpin)

section
variable (ranges : List Transition)

/-- The change at the stop of a range. -/
def deltaStop (t : Option Transition) (r : Range) (delta curpin : Int) : Option (List Transition) :=
  match t.filter fun t => t.pos = r.stop with
  | none =>
    if 0 ≤ curpin then some (search cmpTransition ⟨r.stop, toInt (0 - delta), curpin⟩ ranges)
    else none
  | some t =>
    let t := { t with pins := toInt (t.pins + delta) }
    if t.pins = curpin then
      let t := { t with delta := toInt (t.delta - delta) }
      if t.delta = 0 then some (delete cmpTransition t (store t ranges))
      else some (store t ranges)
    else none

def rangeTrackerDelta (r : Range) (delta : Int) : Option (List Transition) :=
  if delta ≠ 0 ∧ r.start < r.stop then
    (deltaStart ranges r delta).bind fun (ranges, curpin) =>
      (deltaInner r delta (ranges.length + 1) ranges (key r.start) curpin).bind
        fun (ranges, t, curpin) => deltaStop ranges t r delta curpin
  else none

/-- The number of ranges that the first pass over the transitions finds. -/
def rangeCount : Nat :=
  ranges.countP (fun t => toInt (t.pins + t.delta) = 0) +
    if (ranges.getLast?.any fun t => toInt (t.pins + t.delta) ≠ 0) then 1 else 0

end

/-- The second pass. `start` is the start of the range that is open. -/
def collect : List Transition → Option Int → Option (List Range)
  | [], _ => some []
  | t :: ranges, start =>
    if toInt (t.pins + t.delta) ≠ 0 then collect ranges (some (start.getD t.pos))
    else start.bind fun start => (collect ranges none).map fun rest => ⟨start, t.pos⟩ :: rest

def rangeTrackerToArray : List Transition → Option (List Range)
  | [] => some []
  | t :: ranges =>
    if t.pins = 0 ∧ t.delta ≠ 0 then
      (collect ranges (some t.pos)).bind fun ret =>
        if ret.length = rangeCount (t :: ranges) then some ret else none
    else none

def rangeTrackerRoundDown (x quant : Int) : Int := (x.tdiv quant) * quant

/-- The product may be too large for a long. -/
def rangeTrackerRoundUp (x quant : Int) : Int :=
  (((x - 1).tdiv quant + 1) * quant).bmod (2 ^ 64)

/-- The variables of the scan for pinned ranges. -/
structure Scan where
  inRange : Bool
  haveRange : Bool
  cur : Range
  ret : List Transition

/-- A transition at or behind the end of the expanded range ends the scan. -/
def scanLast (expanded : Range) (t : Transition) (s : Scan) : Option Scan :=
  if s.inRange then
    if t.pins ≠ 0 ∧ s.haveRange ∧ expanded.stop ≠ s.cur.start then
      some { s with cur.stop := expanded.stop, inRange := false }
    else none
  else if s.haveRange then some s
  else if t.pins ≠ 0 then some { s with cur := expanded, haveRange := true }
  else some s

def scanNext (quantization : Int) (expanded : Range) (delta : Int) (t : Transition) (s : Scan) :
    Option Scan :=
  let down := rangeTrackerRoundDown t.pos quantization
  let up := rangeTrackerRoundUp t.pos quantization
  if s.inRange then
    if s.haveRange ∧ t.pins ≠ 0 then
      if toInt (t.pins + t.delta) = 0 then
        if up ≠ s.cur.start then some { s with cur.stop := up, inRange := false } else none
      else some s
    else none
  else if s.haveRange then
    if t.pins = 0 ∧ toInt (t.pins + t.delta) ≠ 0 then
      if down ≤ s.cur.stop then some { s with inRange := true }
      else (rangeTrackerDelta s.ret s.cur delta).map fun ret =>
        { s with cur.start := down, inRange := true, ret := ret }
    else none
  else if t.pins ≠ 0 then
    if toInt (t.pins + t.delta) ≠ 0 then
      some { s with cur.start := expanded.start, inRange := true, haveRange := true }
    else if up ≠ expanded.start then
      some { s with cur := ⟨expanded.start, up⟩, haveRange := true }
    else none
  else if toInt (t.pins + t.delta) ≠ 0 then
    some { s with cur.start := down, inRange := true, haveRange := true }
  else none

def scan (rt : RangeTracker) (expanded : Range) (delta : Int) : Nat → Transition → Scan →
    Option Scan
  | 0, _, _ => none
  | fuel + 1, t, s =>
    match lookupGreater cmpTransition t rt.ranges with
    | none => some s
    | some t =>
      if t.delta ≠ 0 then
        if expanded.stop ≤ t.pos then scanLast expanded t s
        else (scanNext rt.quantization expanded delta t s).bind (scan rt expanded delta fuel t)
      else none

/-- Add the pinned blocks of a request to the ranges of another tracker. -/
def pinnedRanges (rt : RangeTracker) (request : Range) (ret : List Transition) (delta : Int) :
    Option (List Transition) :=
  let expanded : Range := ⟨rangeTrackerRoundDown request.start rt.quantization,
    rangeTrackerRoundUp request.stop rt.quantization⟩
  (scan rt expanded delta (rt.ranges.length + 1) (key expanded.start)
    ⟨false, false, ⟨0, 0⟩, ret⟩).bind fun s =>
      if s.inRange then none
      else if s.haveRange then rangeTrackerDelta s.ret s.cur delta
      else some s.ret

/-- Remove ranges from a tracker, one after another. -/
def removeAll (ret : List Transition) (ranges : List Range) : Option (List Transition) :=
  ranges.foldlM (fun ret r => rangeTrackerDelta ret r (-1)) ret

def rangeTrackerAdd (rt : RangeTracker) (rng : Range) : Option (RangeTracker × List Range) :=
  (pinnedRanges rt rng [] 1).bind fun ret =>
    (rangeTrackerDelta rt.ranges rng 1).bind fun ranges =>
      let rt := { rt with ranges := ranges }
      (pinnedRanges rt rng [] 1).bind fun ret2 =>
        (rangeTrackerToArray ret).bind fun pinned =>
          (removeAll ret2 pinned).bind fun ret2 =>
            (removeAll ret pinned).bind fun _ =>
              (rangeTrackerToArray ret2).bind fun added =>
                (removeAll ret2 added).map fun _ => (rt, added)

def rangeTrackerRemove (rt : RangeTracker) (rang : Range) :
    Option (RangeTracker × List Range) :=
  (pinnedRanges rt rang [] 1).bind fun ret =>
    (rangeTrackerDelta rt.ranges rang (-1)).bind fun ranges =>
      let rt := { rt with ranges := ranges }
      (pinnedRanges rt rang ret (-1)).bind fun ret =>
        (rangeTrackerToArray ret).bind fun removed =>
          (removeAll ret removed).map fun _ => (rt, removed)

end RangeTracker
end Stasis
