import Mathlib.Data.List.Nodup
import Mathlib.Data.List.Pairwise

/-!
Histories of operations that overlap, and the atomic orders that explain them.

An operation has an identifier, and is in progress from its call to its return. An order of
operations explains a history if a sequential machine gives each of them its result. An operation
that is in progress may be in the order or not.
-/
namespace Linearizable
open List
variable {A R S : Type}

inductive Event (A R : Type) where
  | call (id : Nat) (op : A)
  | ret (id : Nat) (result : R)
deriving DecidableEq, Repr

def Event.called : Event A R → Option Nat
  | .call id _ => some id
  | .ret _ _ => none

/-- An operation that is carried out at once. -/
structure Atomic (A R : Type) where
  id : Nat
  op : A
  result : R
deriving DecidableEq, Repr

/-- The operation `a` has returned before `b` is called. -/
def Before (history : List (Event A R)) (a b : Nat) : Prop :=
  ∃ result op, [.ret a result, .call b op].Sublist history

/-- The machine goes from one state to another, and gives the results. -/
def Replays (apply : S → A → S × R) : S → List (Atomic A R) → S → Prop
  | s, [], t => s = t
  | s, x :: order, t => (apply s x.op).2 = x.result ∧ Replays apply (apply s x.op).1 order t

structure Explains (apply : S → A → S × R) (start : S) (history : List (Event A R))
    (order : List (Atomic A R)) (final : S) : Prop where
  once : (history.filterMap Event.called).Nodup
  nodup : (order.map Atomic.id).Nodup
  called : ∀ x ∈ order, .call x.id x.op ∈ history
  returned : ∀ id result, .ret id result ∈ history → ∃ op, ⟨id, op, result⟩ ∈ order
  replays : Replays apply start order final
  realTime : order.Pairwise fun x y => ¬ Before history y.id x.id

theorem before_append {e : Event A R} (h : Before (history ++ [e]) a b) : Before history a b ∨
      ∃ result op, .ret a result ∈ history ∧ e = .call b op := by
  obtain ⟨result, op, sub⟩ := h
  obtain ⟨l, l', split, sub, sub'⟩ := sublist_append_iff.mp sub
  match l, l', split with
  | [], _, rfl => exact absurd sub'.length_le (by simp)
  | [_], _, rfl =>
    refine .inr ⟨result, op, sub.subset (mem_singleton_self _), ?_⟩
    exact (mem_singleton.mp (sub'.subset (mem_singleton_self _))).symm
  | [_, _], [], rfl => exact .inl ⟨result, op, sub⟩

theorem Replays.append (h : Replays apply start order final) (id : Nat) (op : A) :
    Replays apply start (order ++ [⟨id, op, (apply final op).2⟩]) (apply final op).1 := by
  induction order generalizing start with
  | nil =>
    cases h
    exact ⟨rfl, rfl⟩
  | cons x order ih => exact ⟨h.1, ih h.2⟩

namespace Explains
variable {apply : S → A → S × R} {start final : S} {history : List (Event A R)}
  {order : List (Atomic A R)} {id : Nat}

theorem empty (apply : S → A → S × R) (start : S) : Explains apply start [] [] start :=
  ⟨nodup_nil, nodup_nil, nofun, nofun, rfl, .nil⟩

section
variable (h : Explains apply start history order final)
include h

/-- A new operation is called. -/
theorem call (fresh : id ∉ history.filterMap Event.called) :
    Explains apply start (history ++ [.call id op]) order final := by
  refine ⟨?_, h.nodup, fun x mem => mem_append_left _ (h.called x mem), ?_, h.replays, ?_⟩
  · rw [filterMap_append]
    exact concat_eq_append ▸ List.Nodup.concat fresh h.once
  · intro other result mem
    rcases mem_append.mp mem with mem | mem
    · exact h.returned other result mem
    · cases mem_singleton.mp mem
  · refine h.realTime.imp_of_mem fun {x y} memX _ not before => ?_
    rcases before_append before with before | ⟨_, _, _, same⟩
    · exact not before
    · cases same
      exact fresh (mem_filterMap.mpr ⟨_, h.called x memX, rfl⟩)

/-- An operation that is in progress takes effect. -/
theorem commit (called : .call id op ∈ history) (fresh : id ∉ order.map Atomic.id) :
    Explains apply start history (order ++ [⟨id, op, (apply final op).2⟩]) (apply final op).1 := by
  refine ⟨h.once, ?_, ?_, ?_, h.replays.append id op, ?_⟩
  · rw [map_append]
    exact concat_eq_append ▸ List.Nodup.concat fresh h.nodup
  · intro x mem
    rcases mem_append.mp mem with mem | mem
    · exact h.called x mem
    · cases mem_singleton.mp mem
      exact called
  · intro other result mem
    obtain ⟨op, mem⟩ := h.returned other result mem
    exact ⟨op, mem_append_left _ mem⟩
  · refine pairwise_append.mpr ⟨h.realTime, pairwise_singleton _ _, ?_⟩
    rintro x _ y mem ⟨result, _, sub⟩
    cases mem_singleton.mp mem
    obtain ⟨op, mem⟩ := h.returned id result (sub.subset (mem_cons_self))
    exact fresh (mem_map.mpr ⟨_, mem, rfl⟩)

/-- An operation that has taken effect returns. -/
theorem ret {result : R} (mem : ⟨id, op, result⟩ ∈ order) :
    Explains apply start (history ++ [.ret id result]) order final := by
  refine ⟨?_, h.nodup, fun x mem => mem_append_left _ (h.called x mem), ?_, h.replays, ?_⟩
  · rw [filterMap_append]
    exact (append_nil _).symm ▸ h.once
  · intro other result' mem'
    rcases mem_append.mp mem' with mem' | mem'
    · exact h.returned other result' mem'
    · cases mem_singleton.mp mem'
      exact ⟨op, mem⟩
  · refine h.realTime.imp fun {x y} not before => ?_
    rcases before_append before with before | ⟨_, _, _, same⟩
    · exact not before
    · cases same

end

end Explains

end Linearizable
