import Mathlib.Data.List.Nodup
import Mathlib.Data.List.Induction

/-!
Linked lists threaded through a successor function.

`Threaded next nil a l` says that the successors of `a` are the elements of `l`,
one after the other, and that the successor of the last one is `nil`. The list
head is itself a cell, so removing the first element is not a special case. The
lemmas say what a change of one or two cells does to the list.
-/
variable {A : Type} {next : A → A} {nil a b : A} {l : List A}

def Threaded (next : A → A) (nil : A) : A → List A → Prop
  | a, [] => next a = nil
  | a, b :: l => next a = b ∧ b ≠ nil ∧ Threaded next nil b l

namespace Threaded
open List

theorem congr (same : ∀ c ∈ a :: l, next' c = next c) (h : Threaded next nil a l) :
    Threaded next' nil a l := by
  induction l generalizing a with
  | nil =>
    have first := same a (.head _)
    exact first.trans h
  | cons b l ih =>
    refine ⟨?_, h.2.1, ih (fun c hc => same c (.tail _ hc)) h.2.2⟩
    exact (same a (.head _)).trans h.1

theorem ne_nil (h : Threaded next nil a l) : ∀ c ∈ l, c ≠ nil := by
  induction l generalizing a with
  | nil => simp
  | cons b l ih =>
    intro c hc
    cases hc with
    | head => exact h.2.1
    | tail _ hc => exact ih h.2.2 c hc

/-- A list is determined by the cell it starts from. -/
theorem unique (h : Threaded next nil a l) (h' : Threaded next nil a front) : l = front := by
  induction l generalizing a front with
  | nil =>
    cases front with
    | nil => rfl
    | cons c front => exact absurd (h'.1.symm.trans h) h'.2.1
  | cons b l ih =>
    cases front with
    | nil => exact absurd (h.1.symm.trans h') h.2.1
    | cons c front =>
      have same : b = c := h.1.symm.trans h'.1
      subst same
      rw [ih h.2.2 h'.2.2]

theorem of_append (h : Threaded next nil a (front ++ b :: back)) : Threaded next nil b back := by
  induction front generalizing a with
  | nil => exact h.2.2
  | cons c front ih => exact ih h.2.2

/-- The successor of the last cell. -/
theorem last (h : Threaded next nil a l) :
    next ((a :: l).getLast (cons_ne_nil _ _)) = nil := by
  induction l generalizing a with
  | nil => exact h
  | cons c l ih =>
    rw [getLast_cons (cons_ne_nil _ _)]
    exact ih h.2.2

/-- Only the last cell has no successor in the list. -/
theorem succ_mem (h : Threaded next nil a l) (hc : c ∈ a :: l) :
    c = (a :: l).getLast (cons_ne_nil _ _) ∨ next c ∈ l := by
  induction l generalizing a with
  | nil => exact .inl (mem_singleton.mp hc)
  | cons b l ih =>
    rw [getLast_cons (cons_ne_nil _ _)]
    cases mem_cons.mp hc with
    | inl eq => exact .inr (eq ▸ h.1 ▸ .head _)
    | inr mem =>
      cases ih h.2.2 mem with
      | inl last => exact .inl last
      | inr mem => exact .inr (.tail _ mem)

theorem push (h : Threaded next nil a l) (ne : b ≠ nil) (head : next' a = b)
    (tail : next' b = next a) (same : ∀ c ∈ l, next' c = next c) :
    Threaded next' nil a (b :: l) := by
  refine ⟨head, ne, ?_⟩
  cases l with
  | nil => exact tail.trans h
  | cons c l => exact ⟨tail.trans h.1, h.2.1, congr same h.2.2⟩

/-- Point the cell before `b` to the cell after it. -/
theorem unlink (h : Threaded next nil a (front ++ b :: back))
    (nodup : (a :: (front ++ b :: back)).Nodup)
    (moved : next' ((a :: front).getLast (cons_ne_nil _ _)) = next b)
    (same : ∀ c ∈ a :: (front ++ back),
      c ≠ (a :: front).getLast (cons_ne_nil _ _) → next' c = next c) :
    Threaded next' nil a (front ++ back) := by
  induction front generalizing a with
  | nil =>
    have distinct : a ∉ b :: back := (nodup_cons.mp nodup).1
    have kept : ∀ c ∈ back, next' c = next c := by
      intro c hc
      apply same c (.tail _ hc)
      intro (eq : c = a)
      exact distinct (.tail _ (eq ▸ hc))
    cases back with
    | nil => exact moved.trans h.2.2
    | cons c back => exact ⟨moved.trans h.2.2.1, h.2.2.2.1, congr kept h.2.2.2.2⟩
  | cons c front ih =>
    have nodup' : (c :: (front ++ b :: back)).Nodup := (nodup_cons.mp nodup).2
    have fresh := (nodup_cons.mp nodup).1
    have before : a ≠ (c :: front).getLast (cons_ne_nil _ _) := by
      intro eq
      apply fresh
      rw [eq, cons_append]
      exact mem_append_left (b :: back) (getLast_mem (cons_ne_nil c front))
    rw [getLast_cons (cons_ne_nil _ _)] at moved same
    refine ⟨(same a (.head _) before).trans h.1, h.2.1, ?_⟩
    exact ih h.2.2 nodup' moved fun d hd => same d (.tail _ hd)

/-- Point the last cell to a new one. -/
theorem concat (h : Threaded next nil a l) (ne : b ≠ nil) (nodup : (a :: l).Nodup)
    (moved : next' ((a :: l).getLast (cons_ne_nil _ _)) = b) (stop : next' b = nil)
    (same : ∀ c ∈ a :: l,
      c ≠ (a :: l).getLast (cons_ne_nil _ _) → next' c = next c) :
    Threaded next' nil a (l ++ [b]) := by
  induction l generalizing a with
  | nil => exact ⟨moved, ne, stop⟩
  | cons c l ih =>
    have before : a ≠ (c :: l).getLast (cons_ne_nil _ _) := by
      intro eq
      apply (nodup_cons.mp nodup).1
      rw [eq]
      exact getLast_mem _
    rw [getLast_cons (cons_ne_nil _ _)] at moved same
    refine ⟨(same a (.head _) before).trans h.1, h.2.1, ?_⟩
    exact ih h.2.2 (nodup_cons.mp nodup).2 moved fun d hd => same d (.tail _ hd)

end Threaded
