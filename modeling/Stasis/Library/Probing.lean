import Stasis.Library.Wheel
import Stasis.Library.Updates

/-!
A table with linear probing on which several walks are going on.

An entry is found by walking on from the position of its key to the first place that is free. A
walk holds the place that it has come to. A walk that looks for a key passes entries with other
keys. The removal of an entry leaves a hole, which is also held; a walk from there passes the
entries whose positions come after the hole. The hole is filled with an entry that must not be
passed, or becomes free at the end of the island. Walks do not overtake each other, so what a walk
has passed stays taken.
-/
namespace Probing
open Wheel Function Updates Option
variable {T K V : Type}

/-- `full` says that the entry at `stop` is passed as well. A walk without a key to look for has
its hole at `start`. -/
structure Walk (K : Type) where
  start : Nat
  stop : Nat
  full : Bool
  goal : Option K

namespace Walk

/-- The number of places that are passed. -/
def len (n : Nat) (x : Walk K) : Nat := dist n x.start x.stop + x.full.toNat

def hole (x : Walk K) : Option Nat :=
  match x.goal with
  | some _ => none
  | none => some x.start

def Holds (x : Walk K) (b : Nat) : Prop := b = x.stop ∨ x.hole = some b

/-- The walk may pass the place `b` with the key `k`. -/
def Passes (n : Nat) (pos : K → Nat) (x : Walk K) (b : Nat) (k : K) : Prop :=
  match x.goal with
  | some p => k ≠ p
  | none => b ≠ x.start → dist n (pos k) b < dist n x.start b

structure Good (n : Nat) (pos : K → Nat) (table : Nat → Option (K × V)) (x : Walk K) : Prop where
  start_lt : x.start < n
  stop_lt : x.stop < n
  begins : ∀ p, x.goal = some p → x.start = pos p
  begun : x.goal = none → 0 < x.len n
  taken : ∀ b < n, dist n x.start b < x.len n → table b ≠ none
  passed : ∀ b < n, ∀ k v, dist n x.start b < x.len n → table b = some (k, v) → x.Passes n pos b k

/-- A hole that the walk has passed was left by a walk that is behind it. -/
def Ahead (n : Nat) (x y : Walk K) : Prop :=
  y.goal = none → dist n x.start y.start < dist n x.start x.stop →
    dist n x.start y.start + dist n y.start y.stop < dist n x.start x.stop

end Walk

def Hole (walks : T → Option (Walk K)) (b : Nat) : Prop := ∃ t, (walks t).bind Walk.hole = some b

section
variable (n : Nat) (pos : K → Nat) (table : Nat → Option (K × V))

/-- The table has the entries of `m`, and each can be found. -/
structure Inv (walks : T → Option (Walk K)) (m : K → Option V) : Prop where
  good : ∀ t x, walks t = some x → x.Good n pos table
  apart : ∀ t u x y, t ≠ u → walks t = some x → walks u = some y → ∀ b, x.Holds b → ¬ y.Holds b
  ahead : ∀ t u x y, t ≠ u → walks t = some x → walks u = some y → x.Ahead n y
  shape : ∀ b < n, ∀ k v, table b = some (k, v) → ¬ Hole walks b →
    ∀ c < n, dist n (pos k) c < dist n (pos k) b → table c ≠ none
  unique : ∀ b < n, ∀ c < n, ∀ k v v', table b = some (k, v) → table c = some (k, v') →
    ¬ Hole walks b → ¬ Hole walks c → b = c
  map : ∀ k v, m k = some v ↔ ∃ b < n, table b = some (k, v) ∧ ¬ Hole walks b

/-- The entries that are live are those of `m`, and each can be found. -/
structure Entries (live : Nat → Prop) (m : K → Option V) : Prop where
  shape : ∀ b < n, ∀ k v, table b = some (k, v) → live b →
    ∀ c < n, dist n (pos k) c < dist n (pos k) b → table c ≠ none
  unique : ∀ b < n, ∀ c < n, ∀ k v v', table b = some (k, v) → table c = some (k, v') → live b →
    live c → b = c
  map : ∀ k v, m k = some v ↔ ∃ b < n, table b = some (k, v) ∧ live b

end

/-- The places that are taken. -/
def occupied (n : Nat) (table : Nat → Option (K × V)) : Finset Nat :=
  (Finset.range n).filter fun b => (table b).isSome

section Walks
variable {pos : K → Nat} {table : Nat → Option (K × V)} {walks : T → Option (Walk K)}
  {m : K → Option V} {x : Walk K} {t : T}

theorem Entries.congr (h : Entries n pos table live m) (same : ∀ b, live' b ↔ live b) :
    Entries n pos table live' m :=
  (funext fun b => propext (same b) : live' = live) ▸ h

theorem Inv.entries (h : Inv n pos table walks m) : Entries n pos table (¬ Hole walks ·) m :=
  ⟨h.shape, h.unique, h.map⟩

theorem mem_occupied : b ∈ occupied n table ↔ b < n ∧ table b ≠ none := by
  rw [occupied, Finset.mem_filter, Finset.mem_range, isSome_iff_ne_none]

theorem Walk.hole_eq_some : x.hole = some b ↔ x.goal = none ∧ x.start = b := by
  unfold Walk.hole
  cases x.goal <;> simp

theorem Walk.len_of_empty (empty : x.full = false) (n : Nat) :
    x.len n = dist n x.start x.stop := by
  rw [Walk.len, empty]
  rfl

theorem Walk.hole_none (goal : x.goal = some p) : x.hole = none := by
  rw [Walk.hole, goal]

theorem Walk.Good.len_le (h : x.Good n pos table) : x.len n ≤ (occupied n table).card := by
  refine le_card h.start_lt ?_ fun b lt near => mem_occupied.mpr ⟨lt, h.taken b lt near⟩
  have lt := dist_lt h.start_lt h.stop_lt
  have flag := x.full.toNat_le
  unfold Walk.len
  omega

/-- What a walk has passed is before its end, or is its end. -/
theorem Walk.Good.lt_or_stop (h : x.Good n pos table) (lt : b < n)
    (near : dist n x.start b < x.len n) : dist n x.start b < dist n x.start x.stop ∨
      b = x.stop := by
  have flag := x.full.toNat_le
  unfold Walk.len at near
  rcases Nat.lt_or_ge (dist n x.start b) (dist n x.start x.stop) with closer | far
  · exact .inl closer
  · exact .inr (dist_inj h.start_lt lt h.stop_lt (by omega))

section
variable (h : Inv n pos table walks m) (at' : walks t = some x)
include h at'

/-- The place that a walk holds is no hole of another one. -/
theorem Inv.not_hole (held : x.Holds b) (not : x.hole ≠ some b) : ¬ Hole walks b := by
  rintro ⟨u, hole⟩
  obtain ⟨y, found, hole⟩ := bind_eq_some_iff.mp hole
  by_cases same : u = t
  · subst same
    cases at'.symm.trans found
    exact not hole
  · exact h.apart t u x y (Ne.symm same) at' found b held (.inr hole)

/-- Holes are left by different walks. -/
theorem Inv.other_hole :
    (∃ u, u ≠ t ∧ (walks u).bind Walk.hole = some b) ↔ Hole walks b ∧ x.hole ≠ some b := by
  constructor
  · rintro ⟨u, other, hole⟩
    refine ⟨⟨u, hole⟩, fun mine => ?_⟩
    obtain ⟨y, found, hole⟩ := bind_eq_some_iff.mp hole
    exact h.apart t u x y other.symm at' found b (.inr mine) (.inr hole)
  · rintro ⟨⟨u, hole⟩, not⟩
    refine ⟨u, ?_, hole⟩
    rintro rfl
    rw [at'] at hole
    exact not hole

/-- A walk that has passed the hole of another walk has passed the end of that walk. -/
theorem Inv.behind (hole : x.goal = none) (other : u ≠ t) (found : walks u = some y)
    (near : dist n y.start x.start < y.len n) :
    dist n y.start x.stop = dist n y.start x.start + dist n x.start x.stop ∧
      dist n y.start x.stop < y.len n := by
  have good := h.good u y found
  have start := (h.good t x at').start_lt
  rcases good.lt_or_stop start near with closer | met
  · have behind := h.ahead u t y x other found at' hole closer
    have short := dist_lt good.start_lt good.stop_lt
    have split := dist_add good.start_lt start (lt_trans behind short)
    refine ⟨split, ?_⟩
    unfold Walk.len
    omega
  · have held : x.Holds x.start := .inr (Walk.hole_eq_some.mpr ⟨hole, rfl⟩)
    exact absurd (.inl met) (h.apart t u x y other.symm at' found x.start held)

section
variable (empty : x.full = false) {p : K} (goal : x.goal = some p) (free : table x.stop = none)
include empty goal free

/-- A key that was looked for in vain is not in the table. -/
theorem Inv.absent (lt : b < n) (entry : table b = some (p, v)) (live : ¬ Hole walks b) :
    False := by
  have good := h.good t x at'
  have begins := good.begins p goal
  have len := Walk.len_of_empty empty n
  rcases Nat.lt_trichotomy (dist n x.start b) (dist n x.start x.stop) with closer | same | farther
  · have passes := good.passed b lt p v (len ▸ closer) entry
    rw [Walk.Passes, goal] at passes
    exact passes rfl
  · rw [dist_inj good.start_lt lt good.stop_lt same, free] at entry
    cases entry
  · exact h.shape b lt p v entry live x.stop good.stop_lt (begins ▸ farther) free

theorem Inv.miss : m p = none := by
  refine eq_none_iff_forall_not_mem.mpr fun v found => ?_
  obtain ⟨b, lt, entry, live⟩ := (h.map p v).mp found
  exact h.absent at' empty goal free lt entry live

end

theorem Inv.hit (goal : x.goal = some p) (entry : table x.stop = some (p, v)) : m p = some v := by
  refine (h.map p v).mpr ⟨x.stop, (h.good t x at').stop_lt, entry, ?_⟩
  exact h.not_hole at' (.inl rfl) (by rw [Walk.hole_none goal]; exact nofun)

end

/-- The end of a walk from a hole is not the hole. -/
theorem Walk.Good.start_ne (good : x.Good n pos table) (hole : x.goal = none)
    (empty : x.full = false) : x.stop ≠ x.start := by
  intro same
  have begun := good.begun hole
  rw [Walk.len, same, dist_self, empty] at begun
  exact lt_irrefl 0 begun

theorem Inv.stop_live (h : Inv n pos table walks m) (at' : walks t = some x)
    (empty : x.full = false) : ¬ Hole walks x.stop := by
  refine h.not_hole at' (.inl rfl) fun hole => ?_
  obtain ⟨goal, same⟩ := Walk.hole_eq_some.mp hole
  exact (h.good t x at').start_ne goal empty same.symm

/-- In a table that is at most half full, that a position comes after the hole can be seen from
its distance to the hole. -/
theorem Inv.past_iff (h : Inv n pos table walks m) (lt : ∀ k, pos k < n) (at' : walks t = some x)
    (empty : x.full = false) (entry : table x.stop = some (k, v))
    (room : 2 * (occupied n table).card ≤ n) :
    (n - 1) / 2 < dist n (pos k) x.start ↔ dist n (pos k) x.stop < dist n x.start x.stop := by
  have good := h.good t x at'
  have len := Walk.len_of_empty empty n
  have short := good.len_le
  have short' : dist n (pos k) x.stop + 1 ≤ (occupied n table).card := by
    refine le_card (lt k) (dist_lt (lt k) good.stop_lt) fun b inside near => ?_
    refine mem_occupied.mpr ⟨inside, ?_⟩
    rcases Nat.lt_or_eq_of_le (Nat.lt_succ_iff.mp near) with near | same
    · exact h.shape x.stop good.stop_lt k v entry (h.stop_live at' empty) b inside near
    · rw [dist_inj (lt k) inside good.stop_lt same, entry]
      exact nofun
  rcases Nat.lt_or_ge (dist n (pos k) x.stop) (dist n x.start x.stop) with closer | farther
  · have around := dist_around (lt k) closer
    omega
  · have split := dist_split_right (lt k) good.start_lt farther
    omega

section Update
variable [DecidableEq T] {w : Option (Walk K)}

theorem hole_update : Hole (update walks t w) b ↔
    w.bind Walk.hole = some b ∨ ∃ u, u ≠ t ∧ (walks u).bind Walk.hole = some b :=
  exists_update_iff walks fun _ w => w.bind Walk.hole = some b

theorem hole_update_of_eq (same : w.bind Walk.hole = (walks t).bind Walk.hole) :
    Hole (update walks t w) b ↔ Hole walks b := by
  rw [hole_update, same, ← hole_update, update_eq_self]

section
variable (h : Inv n pos table walks m)
include h

/-- One walk takes a step. -/
theorem Inv.change (good : ∀ x, w = some x → x.Good n pos table')
    (others : ∀ u y, u ≠ t → walks u = some y → y.Good n pos table')
    (apart : ∀ x, w = some x → ∀ u y, u ≠ t → walks u = some y → ∀ b, x.Holds b → ¬ y.Holds b)
    (ahead : ∀ x, w = some x → ∀ u y, u ≠ t → walks u = some y → x.Ahead n y ∧ y.Ahead n x)
    (entries : Entries n pos table' (¬ Hole (update walks t w) ·) m') :
    Inv n pos table' (update walks t w) m' := by
  refine ⟨?_, ?_, ?_, entries.shape, entries.unique, entries.map⟩
  · intro u x found
    rcases update_eq_cases found with ⟨rfl, new⟩ | ⟨same, found⟩
    · exact good x new
    · exact others u x same found
  · intro u u' x y ne found found'
    rcases update_eq_cases found with ⟨rfl, new⟩ | ⟨same, kept⟩
    · rw [update_of_ne ne.symm] at found'
      exact apart x new u' y ne.symm found'
    · rcases update_eq_cases found' with ⟨rfl, new⟩ | ⟨_, found'⟩
      · exact fun b held held' => apart y new u x same kept b held' held
      · exact h.apart u u' x y ne kept found'
  · intro u u' x y ne found found'
    rcases update_eq_cases found with ⟨rfl, new⟩ | ⟨same, kept⟩
    · rw [update_of_ne ne.symm] at found'
      exact (ahead x new u' y ne.symm found').1
    · rcases update_eq_cases found' with ⟨rfl, new⟩ | ⟨_, found'⟩
      · exact (ahead y new u x same kept).2
      · exact h.ahead u u' x y ne kept found'

/-- A walk takes a step that changes neither the table nor a hole. -/
theorem Inv.step (good : ∀ x, w = some x → x.Good n pos table)
    (apart : ∀ x, w = some x → ∀ u y, u ≠ t → walks u = some y → ∀ b, x.Holds b → ¬ y.Holds b)
    (ahead : ∀ x, w = some x → ∀ u y, u ≠ t → walks u = some y → x.Ahead n y ∧ y.Ahead n x)
    (same : w.bind Walk.hole = (walks t).bind Walk.hole) :
    Inv n pos table (update walks t w) m := by
  exact h.change good (fun u y _ found => h.good u y found) apart ahead
    (h.entries.congr fun b => (hole_update_of_eq same).not)

/-- A walk begins at the position of the key that it looks for. -/
theorem Inv.enter (idle : walks t = none) (lt : pos p < n)
    (free : ∀ u y, walks u = some y → ¬ y.Holds (pos p)) :
    Inv n pos table (update walks t (some ⟨pos p, pos p, false, some p⟩)) m := by
  refine h.step ?_ ?_ ?_ (by rw [idle]; rfl)
  · rintro _ ⟨⟩
    have empty : ∀ b, ¬ dist n (pos p) b < Walk.len n ⟨pos p, pos p, false, some p⟩ := by
      intro b
      simp [Walk.len]
    exact ⟨lt, lt, fun _ same => congrArg pos (some.inj same), nofun,
      fun b _ near => absurd near (empty b), fun b _ _ _ near => absurd near (empty b)⟩
  · rintro _ ⟨⟩ u y _ found b (rfl | hole)
    · exact free u y found
    · cases hole
  · rintro _ ⟨⟩ u y _ _
    refine ⟨fun _ near => ?_, nofun⟩
    rw [dist_self] at near
    exact absurd near (Nat.not_lt_zero _)

/-- The entry at the end of a walk is passed. -/
theorem Inv.pass (at' : walks t = some x) (empty : x.full = false)
    (entry : table x.stop = some (k, v)) (passes : x.Passes n pos x.stop k) :
    Inv n pos table (update walks t (some { x with full := true })) m := by
  have old := h.good t x at'
  have split : ∀ b < n, dist n x.start b < Walk.len n { x with full := true } →
      dist n x.start b < x.len n ∨ b = x.stop := by
    intro b lt near
    rw [Walk.len_of_empty empty]
    refine (Nat.lt_or_eq_of_le (Nat.lt_succ_iff.mp near)).imp_right ?_
    exact dist_inj old.start_lt lt old.stop_lt
  refine h.step ?_ ?_ ?_ (by rw [at']; rfl)
  · rintro _ ⟨⟩
    refine ⟨old.start_lt, old.stop_lt, old.begins, fun _ => Nat.succ_pos _, ?_, ?_⟩
    · intro b lt near
      rcases split b lt near with near | rfl
      · exact old.taken b lt near
      · rw [entry]
        exact nofun
    · intro b lt k' v' near entry'
      rcases split b lt near with near | rfl
      · exact old.passed b lt k' v' near entry'
      · cases entry.symm.trans entry'
        exact passes
  · rintro _ ⟨⟩ u y other found
    exact h.apart t u x y other.symm at' found
  · rintro _ ⟨⟩ u y other found
    exact ⟨h.ahead t u x y other.symm at' found, h.ahead u t y x other found at'⟩

/-- A walk goes on to the next place, which is free. -/
theorem Inv.advance (at' : walks t = some x) (full : x.full = true)
    (room : (occupied n table).card + 1 < n)
    (free : ∀ u y, u ≠ t → walks u = some y → ¬ y.Holds (next n x.stop)) :
    Inv n pos table
      (update walks t (some { x with stop := next n x.stop, full := false })) m := by
  have old := h.good t x at'
  have len : x.len n = dist n x.start x.stop + 1 := by rw [Walk.len, full]; rfl
  have short := old.len_le
  have lt : next n x.stop < n := next_lt old.stop_lt (by omega)
  have far := dist_next old.start_lt old.stop_lt (by omega)
  have same : Walk.len n { x with stop := next n x.stop, full := false } = x.len n :=
    far.trans len.symm
  refine h.step ?_ ?_ ?_ (by rw [at']; rfl)
  · rintro _ ⟨⟩
    refine ⟨old.start_lt, lt, old.begins, fun goal => same.symm ▸ old.begun goal, ?_, ?_⟩
    · intro b lt near
      exact old.taken b lt (same ▸ near)
    · intro b lt k v near entry
      exact old.passed b lt k v (same ▸ near) entry
  · rintro _ ⟨⟩ u y other found b (rfl | hole)
    · exact free u y other found
    · exact h.apart t u x y other.symm at' found b (.inr hole)
  · rintro _ ⟨⟩ u y other found
    have other' := h.good u y found
    constructor
    · -- the hole of the other walk is not the place that is left
      intro goal near
      have near : dist n x.start y.start < dist n x.start x.stop + 1 := far ▸ near
      show dist n x.start y.start + dist n y.start y.stop < dist n x.start (next n x.stop)
      rw [far]
      rcases Nat.lt_or_eq_of_le (Nat.lt_succ_iff.mp near) with near | hit
      · have behind := h.ahead t u x y other.symm at' found goal near
        omega
      · have hole := dist_inj old.start_lt other'.start_lt old.stop_lt hit
        refine absurd (Or.inr ?_) (h.apart t u x y other.symm at' found x.stop (.inl rfl))
        exact Walk.hole_eq_some.mpr ⟨goal, hole⟩
    · -- the end of the other walk is not the place that is entered
      intro goal near
      have behind := h.ahead u t y x other found at' goal near
      have bound := other'.len_le
      unfold Walk.len at bound
      show dist n y.start x.start + dist n x.start (next n x.stop) < _
      rw [far]
      refine Nat.lt_of_le_of_ne (by omega) fun hit => ?_
      refine free u y other found (.inl ?_)
      refine dist_inj other'.start_lt lt other'.stop_lt ?_
      rw [dist_add other'.start_lt old.start_lt (by rw [far]; omega), far]
      omega

/-- A walk that looks for a key ends. -/
theorem Inv.leave (at' : walks t = some x) (goal : x.goal = some p) :
    Inv n pos table (update walks t none) m := by
  refine h.step nofun nofun nofun ?_
  rw [at', bind_some, Walk.hole_none goal]
  rfl

end

/-- The walk that has left a hole at `e`, and gone no further. -/
def Walk.anchor (e : Nat) : Walk K := ⟨e, e, true, none⟩

/-- A walk that has come to `x.stop` leaves a hole there. -/
theorem Inv.anchored (h : Inv n pos table walks m) (at' : walks t = some x)
    (taken : table' x.stop ≠ none)
    (others : ∀ u y, u ≠ t → walks u = some y → y.Good n pos table')
    (entries : Entries n pos table'
      (fun b => b ≠ x.stop ∧ ¬ (Hole walks b ∧ x.hole ≠ some b)) m') :
    Inv n pos table' (update walks t (some (.anchor x.stop))) m' := by
  have old := h.good t x at'
  have near : ∀ b < n, dist n x.stop b < Walk.len n (.anchor x.stop : Walk K) → b = x.stop := by
    intro b lt near
    refine eq_of_dist_eq_zero old.stop_lt lt (Nat.lt_one_iff.mp ?_)
    simpa [Walk.len, Walk.anchor] using near
  have holes : ∀ b, ¬ Hole (update walks t (some (.anchor x.stop))) b ↔
      b ≠ x.stop ∧ ¬ (Hole walks b ∧ x.hole ≠ some b) := by
    intro b
    rw [hole_update, h.other_hole at', not_or]
    refine and_congr_left fun _ => not_congr ?_
    exact some_inj.trans eq_comm
  refine h.change ?_ others ?_ ?_ (entries.congr holes)
  · rintro _ ⟨⟩
    refine ⟨old.stop_lt, old.stop_lt, nofun, fun _ => Nat.succ_pos _, ?_, ?_⟩
    · intro b lt close
      rw [near b lt close]
      exact taken
    · exact fun b lt k v close _ ne => absurd (near b lt close) ne
  · rintro _ ⟨⟩ u y other found b held
    have same : b = x.stop := held.elim id fun hole => (some.inj hole).symm
    exact h.apart t u x y other.symm at' found b (.inl same)
  · rintro _ ⟨⟩ u y _ _
    refine ⟨fun _ close => ?_, fun _ close => ?_⟩
    · exact absurd (dist_self n x.stop ▸ close) (Nat.not_lt_zero _)
    · show dist n y.start x.stop + dist n x.stop x.stop < _
      rw [dist_self]
      exact close

/-- The entry that was looked for is removed. -/
theorem Inv.remove [DecidableEq K] (h : Inv n pos table walks m) (at' : walks t = some x)
    (goal : x.goal = some p) (entry : table x.stop = some (p, v)) :
    Inv n pos table (update walks t (some (.anchor x.stop))) (update m p none) := by
  have stop := (h.good t x at').stop_lt
  have live : ¬ Hole walks x.stop :=
    h.not_hole at' (.inl rfl) (by rw [Walk.hole_none goal]; exact nofun)
  have holes : ∀ b, (b ≠ x.stop ∧ ¬ (Hole walks b ∧ x.hole ≠ some b)) ↔
      b ≠ x.stop ∧ ¬ Hole walks b := by
    intro b
    rw [Walk.hole_none goal, and_iff_left (nofun : none ≠ some b)]
  refine h.anchored at' (by rw [entry]; exact nofun) (fun u y _ found => h.good u y found)
    (.congr ⟨?_, ?_, ?_⟩ holes)
  · intro b lt k v entry live
    exact h.shape b lt k v entry live.2
  · intro b lt c lt' k v v' entry entry' live live'
    exact h.unique b lt c lt' k v v' entry entry' live.2 live'.2
  · intro k v'
    by_cases same : k = p
    · subst same
      rw [update_self]
      refine ⟨nofun, ?_⟩
      rintro ⟨b, lt, entry', ne, live'⟩
      exact absurd (h.unique b lt x.stop stop k v' v entry' entry live' live) ne
    · rw [update_of_ne same, h.map]
      refine exists_congr fun b => and_congr_right fun _ => and_congr_right fun entry' => ?_
      refine (and_iff_right ?_).symm
      rintro rfl
      rw [entry] at entry'
      cases entry'
      exact same rfl

section
variable (h : Inv n pos table walks m) (lt : ∀ k, pos k < n) (at' : walks t = some x)
  (empty : x.full = false) (hole : x.goal = none)
include h lt at' empty hole

/-- The hole is filled with an entry that may stand there. -/
theorem Inv.fill (entry : table x.stop = some (k, v))
    (before : dist n x.start x.stop ≤ dist n (pos k) x.stop) :
    Inv n pos (update table x.start (some (k, v)))
      (update walks t (some (.anchor x.stop))) m := by
  have good := h.good t x at'
  have live := h.stop_live at' empty
  have ne := good.start_ne hole empty
  have split := dist_split_right (lt k) good.start_lt before
  have mine : Hole walks x.start :=
    ⟨t, by rw [at']; exact Walk.hole_eq_some.mpr ⟨hole, rfl⟩⟩
  have taken : ∀ c, table c ≠ none → update table x.start (some (k, v)) c ≠ none :=
    fun c taken => update_cases (P := (· ≠ none)) (fun _ => nofun) fun _ => taken
  have holes : ∀ b, b ≠ x.start → ¬ (Hole walks b ∧ x.hole ≠ some b) → ¬ Hole walks b := by
    intro b ne not other
    refine not ⟨other, fun hole => ?_⟩
    exact ne (Walk.hole_eq_some.mp hole).2.symm
  refine h.anchored at' (taken _ (by rw [entry]; exact nofun)) ?_ ⟨?_, ?_, ?_⟩
  · intro u y other found
    have old := h.good u y found
    refine ⟨old.start_lt, old.stop_lt, old.begins, old.begun,
      fun b lt near => taken b (old.taken b lt near), ?_⟩
    intro b inside k' v' near entry'
    rcases update_eq_cases entry' with ⟨rfl, ⟨⟩⟩ | ⟨_, entry'⟩
    · obtain ⟨far, close⟩ := h.behind at' hole other found near
      have passes := old.passed x.stop good.stop_lt k v close entry
      revert passes
      unfold Walk.Passes
      cases y.goal with
      | some p => exact id
      | none =>
        intro passes ne'
        have closer := passes fun met => ?_
        · omega
        · rw [met, dist_self] at far
          exact ne' (eq_of_dist_eq_zero old.start_lt inside (by omega))
    · exact old.passed b inside k' v' near entry'
  · intro b inside k' v' entry' ⟨_, live'⟩ c inside' closer
    rcases update_eq_cases entry' with ⟨rfl, ⟨⟩⟩ | ⟨same, entry'⟩
    · exact taken c (h.shape x.stop good.stop_lt k v entry live c inside' (by omega))
    · exact taken c (h.shape b inside k' v' entry' (holes b same live') c inside' closer)
  · intro b inside c inside' k' v' v'' entry' entry'' ⟨ne', live'⟩ ⟨ne'', live''⟩
    rcases update_eq_cases entry' with ⟨rfl, ⟨⟩⟩ | ⟨same, entry'⟩
    · by_cases same' : c = x.start
      · exact same'.symm
      · rw [update_of_ne same'] at entry''
        exact absurd (h.unique c inside' x.stop good.stop_lt k v'' v entry'' entry
          (holes c same' live'') live) ne''
    · rcases update_eq_cases entry'' with ⟨rfl, ⟨⟩⟩ | ⟨same', entry''⟩
      · exact absurd (h.unique b inside x.stop good.stop_lt k v' v entry' entry
          (holes b same live') live) ne'
      · exact h.unique b inside c inside' k' v' v'' entry' entry'' (holes b same live')
          (holes c same' live'')
  · intro k' v'
    rw [h.map]
    constructor
    · rintro ⟨b, inside, entry', live'⟩
      by_cases same : b = x.stop
      · subst same
        cases entry.symm.trans entry'
        refine ⟨x.start, good.start_lt, update_self .., ne.symm, ?_⟩
        exact fun not => not.2 (Walk.hole_eq_some.mpr ⟨hole, rfl⟩)
      · have elsewhere : b ≠ x.start := by
          rintro rfl
          exact live' mine
        refine ⟨b, inside, ?_, same, fun not => live' not.1⟩
        rw [update_of_ne elsewhere]
        exact entry'
    · rintro ⟨b, inside, entry', ne', live'⟩
      rcases update_eq_cases entry' with ⟨rfl, ⟨⟩⟩ | ⟨same, entry'⟩
      · exact ⟨x.stop, good.stop_lt, entry, live⟩
      · exact ⟨b, inside, entry', holes b same live'⟩

/-- At the end of the island, the hole becomes free. -/
theorem Inv.clear (free : table x.stop = none) :
    Inv n pos (update table x.start none) (update walks t none) m := by
  have good := h.good t x at'
  have len := Walk.len_of_empty empty n
  have mine : Hole walks x.start :=
    ⟨t, by rw [at']; exact Walk.hole_eq_some.mpr ⟨hole, rfl⟩⟩
  have entries : ∀ b k v, update table x.start none b = some (k, v) →
      ¬ Hole (update walks t none) b → b ≠ x.start ∧ table b = some (k, v) ∧
        ¬ Hole walks b := by
    intro b k v entry live
    have ne : b ≠ x.start := by
      rintro rfl
      rw [update_self] at entry
      cases entry
    rw [update_of_ne ne] at entry
    refine ⟨ne, entry, fun other => live ?_⟩
    refine hole_update.mpr (.inr ((h.other_hole at').mpr ⟨other, fun same => ?_⟩))
    exact ne (Walk.hole_eq_some.mp same).2.symm
  refine h.change nofun ?_ nofun nofun ⟨?_, ?_, ?_⟩
  · -- a walk that had passed the hole would have passed the place that is free
    intro u y other found
    have old := h.good u y found
    have apart : ∀ b < n, dist n y.start b < y.len n → b ≠ x.start := by
      rintro b inside near rfl
      exact old.taken x.stop good.stop_lt (h.behind at' hole other found near).2 free
    refine ⟨old.start_lt, old.stop_lt, old.begins, old.begun, ?_, ?_⟩
    · intro b inside near
      rw [update_of_ne (apart b inside near)]
      exact old.taken b inside near
    · intro b inside k v near entry
      rw [update_of_ne (apart b inside near)] at entry
      exact old.passed b inside k v near entry
  · -- an entry on whose way the hole is would not have been passed
    intro b inside k v entry live c inside' closer
    obtain ⟨ne, entry, live⟩ := entries b k v entry live
    have way := h.shape b inside k v entry live
    by_cases same : c = x.start
    · subst same
      exfalso
      have split := dist_split (lt k) good.start_lt inside (le_of_lt closer)
      have short : dist n x.start b < dist n x.start x.stop := by
        by_contra far
        have split' := dist_add (lt k) good.start_lt
          (lt_of_le_of_lt (by omega) (dist_lt (lt k) inside) :
            dist n (pos k) x.start + dist n x.start x.stop < n)
        rcases Nat.lt_or_eq_of_le (Nat.le_of_not_lt far) with further | met
        · exact way x.stop good.stop_lt (by omega) free
        · rw [← dist_inj good.start_lt good.stop_lt inside met, free] at entry
          cases entry
      have passes := good.passed b inside k v (len ▸ short) entry
      rw [Walk.Passes, hole] at passes
      have := passes ne
      omega
    · rw [update_of_ne same]
      exact way c inside' closer
  · intro b inside c inside' k v v' entry entry' live live'
    obtain ⟨_, entry, live⟩ := entries b k v entry live
    obtain ⟨_, entry', live'⟩ := entries c k v' entry' live'
    exact h.unique b inside c inside' k v v' entry entry' live live'
  · intro k v
    rw [h.map]
    constructor
    · rintro ⟨b, inside, entry, live⟩
      have ne : b ≠ x.start := by
        rintro rfl
        exact live mine
      refine ⟨b, inside, by rw [update_of_ne ne]; exact entry, fun other => ?_⟩
      rcases hole_update.mp other with none | ⟨u, _, other⟩
      · cases none
      · exact live ⟨u, other⟩
    · rintro ⟨b, inside, entry, live⟩
      obtain ⟨_, entry, live⟩ := entries b k v entry live
      exact ⟨b, inside, entry, live⟩

end

/-- The key that was looked for gets a value, at the place where it is or where it may be put. -/
theorem Inv.put [DecidableEq K] (h : Inv n pos table walks m) (at' : walks t = some x)
    (empty : x.full = false) (goal : x.goal = some p)
    (fits : ∀ k v, table x.stop = some (k, v) → k = p) (v : V) :
    Inv n pos (update table x.stop (some (p, v))) (update walks t none)
      (update m p (some v)) := by
  have good := h.good t x at'
  have live := h.stop_live at' empty
  have len := Walk.len_of_empty empty n
  have holes : ∀ b, Hole (update walks t none) b ↔ Hole walks b := by
    intro b
    refine hole_update_of_eq ?_
    rw [at', bind_some, Walk.hole_none goal]
    rfl
  have taken : ∀ c, table c ≠ none → update table x.stop (some (p, v)) c ≠ none :=
    fun c taken => update_cases (P := (· ≠ none)) (fun _ => nofun) fun _ => taken
  -- no other entry has the key
  have only : ∀ b < n, ∀ v', table b = some (p, v') → ¬ Hole walks b → b = x.stop := by
    intro b inside v' entry live'
    cases found : table x.stop with
    | none => exact (h.absent at' empty goal found inside entry live').elim
    | some e =>
      have key := fits e.1 e.2 found
      refine h.unique b inside x.stop good.stop_lt p v' e.2 entry ?_ live' live
      rw [found, ← key]
  refine h.change nofun ?_ nofun nofun (.congr ⟨?_, ?_, ?_⟩ fun b => (holes b).not)
  · intro u y other found
    have old := h.good u y found
    refine ⟨old.start_lt, old.stop_lt, old.begins, old.begun,
      fun b inside near => taken b (old.taken b inside near), ?_⟩
    intro b inside k v' near entry
    rcases update_eq_cases entry with ⟨rfl, ⟨⟩⟩ | ⟨_, entry⟩
    · obtain ⟨e, before⟩ := ne_none_iff_exists'.mp (old.taken x.stop inside near)
      have key := fits e.1 e.2 before
      exact key ▸ old.passed x.stop inside e.1 e.2 near before
    · exact old.passed b inside k v' near entry
  · intro b inside k v' entry live' c inside' closer
    rcases update_eq_cases entry with ⟨rfl, ⟨⟩⟩ | ⟨_, entry⟩
    · exact taken c (good.taken c inside' (by rw [len, good.begins p goal]; exact closer))
    · exact taken c (h.shape b inside k v' entry live' c inside' closer)
  · intro b inside c inside' k v' v'' entry entry' live' live''
    rcases update_eq_cases entry with ⟨rfl, ⟨⟩⟩ | ⟨_, entry⟩
    · by_cases same' : c = x.stop
      · exact same'.symm
      · rw [update_of_ne same'] at entry'
        exact (only c inside' v'' entry' live'').symm
    · rcases update_eq_cases entry' with ⟨rfl, ⟨⟩⟩ | ⟨_, entry'⟩
      · exact only b inside v' entry live'
      · exact h.unique b inside c inside' k v' v'' entry entry' live' live''
  · intro k v'
    by_cases same : k = p
    · subst same
      rw [update_self]
      constructor
      · rintro ⟨⟩
        exact ⟨x.stop, good.stop_lt, update_self .., live⟩
      · rintro ⟨b, inside, entry, live'⟩
        rcases update_eq_cases entry with ⟨rfl, ⟨⟩⟩ | ⟨same, entry⟩
        · rfl
        · exact absurd (only b inside v' entry live') same
    · rw [update_of_ne same, h.map]
      refine exists_congr fun b => and_congr_right fun _ => and_congr_left fun _ => ?_
      by_cases same' : b = x.stop
      · subst same'
        rw [update_self]
        refine ⟨fun entry => absurd (fits k v' entry) same, ?_⟩
        rintro ⟨⟩
        exact absurd rfl same
      · rw [update_of_ne same']

end Update

end Walks

end Probing
