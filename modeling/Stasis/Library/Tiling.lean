import Mathlib.Data.List.Pairwise
import Mathlib.Algebra.Order.Group.Unbundled.Int

/-!
Ranges that follow one another without a gap.
-/
namespace Tiling
open List
variable {T : Type} {start size : T → Int}

/-- The ranges of `l` tile the numbers from `a` up to `b`, in order. -/
def Tiles (start size : T → Int) : Int → List T → Int → Prop
  | a, [], b => a = b
  | a, r :: l, b => start r = a ∧ 0 < size r ∧ Tiles start size (a + size r) l b

namespace Tiles
variable {l : List T}

theorem le (h : Tiles start size a l b) : a ≤ b := by
  induction l generalizing a with
  | nil => exact Int.le_of_eq h
  | cons r l ih =>
    have rest := ih h.2.2
    have pos := h.2.1
    omega

theorem append_iff :
    Tiles start size a (l ++ l') b ↔ ∃ m, Tiles start size a l m ∧ Tiles start size m l' b := by
  induction l generalizing a with
  | nil => exact ⟨fun h => ⟨a, rfl, h⟩, fun ⟨m, eq, h⟩ => (show a = m from eq) ▸ h⟩
  | cons r l ih =>
    constructor
    · intro ⟨first, pos, rest⟩
      obtain ⟨m, hl, hl'⟩ := ih.mp rest
      exact ⟨m, ⟨first, pos, hl⟩, hl'⟩
    · intro ⟨m, ⟨first, pos, hl⟩, hl'⟩
      exact ⟨first, pos, ih.mpr ⟨m, hl, hl'⟩⟩

theorem concat (h : Tiles start size a l b) (first : start r = b) (pos : 0 < size r) :
    Tiles start size a (l ++ [r]) (b + size r) :=
  append_iff.mpr ⟨b, h, first, pos, rfl⟩

theorem map (h : Tiles start size a l b) (hs : ∀ r, start (f r) = start r)
    (hz : ∀ r, size (f r) = size r) : Tiles start size a (l.map f) b := by
  induction l generalizing a with
  | nil => exact h
  | cons r l ih => exact ⟨(hs r).trans h.1, (hz r).symm ▸ h.2.1, ih ((hz r).symm ▸ h.2.2)⟩

section
variable (h : Tiles start size a l b)
include h

theorem bounds (mem : r ∈ l) : a ≤ start r ∧ 0 < size r ∧ start r + size r ≤ b := by
  obtain ⟨front, back, rfl⟩ := append_of_mem mem
  obtain ⟨m, hf, first, pos, rest⟩ := append_iff.mp h
  have before := hf.le
  have behind := rest.le
  omega

theorem ordered : l.Pairwise fun r s => start r + size r ≤ start s := by
  induction l generalizing a with
  | nil => exact .nil
  | cons r l ih =>
    refine pairwise_cons.mpr ⟨fun s mem => ?_, ih h.2.2⟩
    have later := (h.2.2.bounds mem).1
    rw [h.1]
    exact later

theorem covers : a ≤ x ∧ x < b ↔ ∃ r ∈ l, start r ≤ x ∧ x < start r + size r := by
  constructor
  · intro ⟨low, high⟩
    induction l generalizing a with
    | nil =>
      have same : a = b := h
      omega
    | cons r l ih =>
      have first := h.1
      by_cases here : x < a + size r
      · exact ⟨r, mem_cons_self, by omega, by omega⟩
      · obtain ⟨s, mem, inside⟩ := ih h.2.2 (by omega)
        exact ⟨s, mem_cons_of_mem r mem, inside⟩
  · intro ⟨r, mem, inside⟩
    have := h.bounds mem
    omega

theorem apart (hr : r ∈ l) (hs : s ∈ l) (ne : r ≠ s) :
    start r + size r ≤ start s ∨ start s + size s ≤ start r := by
  let apart r s := start r + size r ≤ start s ∨ start s + size s ≤ start r
  have : Std.Symm apart := ⟨fun _ _ => .symm⟩
  exact (h.ordered.imp .inl : l.Pairwise apart).forall hr hs ne

theorem inj (hr : r ∈ l) (hs : s ∈ l) (inR : start r ≤ x ∧ x < start r + size r)
    (inS : start s ≤ x ∧ x < start s + size s) : r = s := by
  by_contra ne
  have := h.apart hr hs ne
  omega

theorem start_inj (hr : r ∈ l) (hs : s ∈ l) (same : start r = start s) : r = s := by
  have first := h.bounds hr
  have second := h.bounds hs
  exact h.inj hr hs (x := start r) (by omega) (by omega)

theorem before (hr : r ∈ l) (hs : s ∈ l) (lt : start r < start s) :
    start r + size r ≤ start s := by
  have apart := h.apart hr hs (fun eq => by rw [eq] at lt; omega)
  have pos := (h.bounds hs).2.1
  omega

end

section
variable {l' : List T} (h : Tiles start size a l m) (h' : Tiles start size m l' b)
include h h'

/-- The ranges in front of the point where two tilings meet. -/
theorem filter_lt : (l ++ l').filter (fun r => start r < m) = l := by
  have low : l.filter (fun r => decide (start r < m)) = l := by
    refine filter_eq_self.mpr fun r mem => decide_eq_true ?_
    have := h.bounds mem
    omega
  have high : l'.filter (fun r => decide (start r < m)) = [] := by
    refine filter_eq_nil_iff.mpr fun r mem => ?_
    have := (h'.bounds mem).1
    rw [decide_eq_true_eq]
    omega
  rw [filter_append, low, high, append_nil]

theorem filter_ge : (l ++ l').filter (fun r => m ≤ start r) = l' := by
  have low : l.filter (fun r => decide (m ≤ start r)) = [] := by
    refine filter_eq_nil_iff.mpr fun r mem => ?_
    have := h.bounds mem
    rw [decide_eq_true_eq]
    omega
  have high : l'.filter (fun r => decide (m ≤ start r)) = l' :=
    filter_eq_self.mpr fun r mem => decide_eq_true (h'.bounds mem).1
  rw [filter_append, low, high, nil_append]

end

/-- A range of the list, with what is in front of it. -/
theorem split_at (h : Tiles start size a l b) (mem : r ∈ l) :
    ∃ front back, l = front ++ r :: back ∧ Tiles start size a front (start r) ∧
      Tiles start size (start r) (r :: back) b := by
  obtain ⟨front, back, rfl⟩ := append_of_mem mem
  obtain ⟨m, hf, hb⟩ := append_iff.mp h
  have first : start r = m := hb.1
  exact ⟨front, back, rfl, first ▸ hf, first ▸ hb⟩

end Tiles
end Tiling
