import Mathlib.Logic.Basic

/-!
The CLOCK replacement policy, as one thread uses it.

`touched` is no part of the program: it says how far the hand was when a page was last hit or
inserted.
-/
namespace Stasis.Clock

/-- A page. The policy has its state in `next`: 1 is hot, 0 is cold and -1 is taken. -/
structure Page where
  next : Int
  pinCount : Int

structure State where
  ptr : Nat
  pages : Nat → Page
  touched : Nat → Option Nat

section Model
variable (pageCount : Nat) (c : State) (p : Nat)

def State.set (page : Page) : State :=
  { c with pages := fun q => if q = p then page else c.pages q }

def State.touch : State :=
  { c with touched := fun q => if q = p then some c.ptr else c.touched q }

def clockHit : State := (c.set p { c.pages p with next := 1 }).touch p

def clockRemove : State × Option Nat :=
  (c.set p { c.pages p with pinCount := (c.pages p).pinCount + 1 },
    if (c.pages p).pinCount = 0 then some p else none)

def clockInsert : State := (c.set p ⟨1, (c.pages p).pinCount - 1⟩).touch p

/-- A turn of the loop of `clockGetStaleAndRemove`. A cold page that is pinned is marked and
unmarked. -/
def spin : State × Option Nat :=
  let p := c.ptr % pageCount
  let page := c.pages p
  let c := { c with ptr := c.ptr + 1 }
  if page.next = 0 then
    if page.pinCount = 0 then (c.set p ⟨-1, page.pinCount + 1⟩, some p) else (c, none)
  else if page.next = 1 then (c.set p { page with next := 0 }, none)
  else (c, none)

def spins : Nat → State → State × Option Nat
  | 0, c => (c, none)
  | n + 1, c =>
    if (spin pageCount c).2 = none then spins n (spin pageCount c).1 else spin pageCount c

def clockGetStaleAndRemove : State × Option Nat := spins pageCount (2 * pageCount) c

end Model

inductive Op where
  | hit (p : Nat)
  | remove (p : Nat)
  | insert (p : Nat)
  | getStaleAndRemove

def Op.run (pageCount : Nat) (c : State) : Op → State
  | hit p => clockHit c p
  | remove p => (clockRemove c p).1
  | insert p => clockInsert c p
  | getStaleAndRemove => (clockGetStaleAndRemove pageCount c).1

/-- No page is inserted while its pin count is 0, or removed while it is the greatest int. -/
def Op.Allowed (c : State) : Op → Prop
  | insert p => (c.pages p).pinCount ≠ 0
  | remove p => (c.pages p).pinCount < 2147483647
  | _ => True

/-- Every page is pinned once, whatever its state and wherever the hand is. -/
inductive Reached (pageCount : Nat) : State → Prop
  | start (c : State) (pinned : ∀ p, (c.pages p).pinCount = 1) (fresh : ∀ p, c.touched p = none) :
      Reached pageCount c
  | step {c : State} (before : Reached pageCount c) (op : Op) (allowed : op.Allowed c) :
      Reached pageCount (op.run pageCount c)

/-- The hand has passed the page between two positions. -/
def Passed (pageCount p first last : Nat) : Prop := ∃ k, first ≤ k ∧ k < last ∧ k % pageCount = p

/-- What holds of a page when the hand is at `ptr`. -/
structure PageInv (pageCount p ptr : Nat) (page : Page) (touched : Option Nat) : Prop where
  nonneg : 0 ≤ page.pinCount
  waits : page.pinCount = 0 → page.next = 0 ∨ page.next = 1
  cooled : ∀ since, touched = some since → since ≤ ptr ∧
    (page.next = 1 ∨ Passed pageCount p since ptr)

def Inv (pageCount : Nat) (c : State) : Prop :=
  ∀ p, PageInv pageCount p c.ptr (c.pages p) (c.touched p)

/-- What a turn does: it looks at one page, which it returns or passes. -/
structure Spun (pageCount : Nat) (c c' : State) (ret : Option Nat) : Prop where
  ptr : c'.ptr = c.ptr + 1
  touched : c'.touched = c.touched
  others : ∀ p, p ≠ c.ptr % pageCount → c'.pages p = c.pages p
  found : ∀ p, ret = some p → p = c.ptr % pageCount ∧ (c.pages p).next = 0 ∧
    (c.pages p).pinCount = 0 ∧ c'.pages p = ⟨-1, 1⟩
  passed : ret = none → ∀ p, p = c.ptr % pageCount →
    (c'.pages p).pinCount = (c.pages p).pinCount ∧
    ((c.pages p).pinCount = 0 → (c.pages p).next ≠ 0) ∧
    ((c.pages p).next = 1 ∧ (c'.pages p).next = 0 ∨
      (c.pages p).next ≠ 1 ∧ (c'.pages p).next = (c.pages p).next)

section Safety
variable {n m p k : Nat} {c c' : State}

theorem spin_spun (n : Nat) (c : State) : Spun n c (spin n c).1 (spin n c).2 := by
  unfold spin
  constructor <;> grind [State.set]

theorem Spun.inv (h : Spun n c c' ret) (inv : Inv n c) : Inv n c' := by
  obtain ⟨ptr, touched, others, found, passed⟩ := h
  intro p
  obtain ⟨nonneg, waits, cooled⟩ := inv p
  constructor
  · cases ret <;> grind
  · cases ret <;> grind
  · intro since eq
    have pass : p = c.ptr % n → since ≤ c.ptr → Passed n p since c'.ptr :=
      fun here le => ⟨c.ptr, le, by omega, here.symm⟩
    have mono : Passed n p since c.ptr → Passed n p since c'.ptr :=
      fun ⟨k, low, high, at'⟩ => ⟨k, low, by omega, at'⟩
    grind

theorem spins_inv (inv : Inv n c) : Inv n (spins n m c).1 := by
  induction m generalizing c with
  | zero => exact inv
  | succ m ih => grind [spins, (spin_spun n c).inv inv]

theorem Reached.inv (h : Reached n c) : Inv n c := by
  induction h with
  | start c pinned fresh =>
    intro p
    exact ⟨by rw [pinned]; decide, by rw [pinned]; nofun, by rw [fresh]; nofun⟩
  | @step c before op allowed ih =>
    cases op with
    | getStaleAndRemove => exact spins_inv ih
    | hit q | remove q | insert q =>
      intro p
      obtain ⟨nonneg, waits, cooled⟩ := ih p
      simp only [Op.run, Op.Allowed, clockHit, clockRemove, clockInsert, State.set,
        State.touch] at allowed ⊢
      constructor <;> grind

end Safety

def pinned : State := ⟨0, fun _ => ⟨0, 1⟩, fun _ => none⟩

/-- Pages 0 and 2 of three are no longer pinned. Both are hot, and are passed once. -/
def released : State := clockInsert (clockInsert pinned 0) 2

end Stasis.Clock
