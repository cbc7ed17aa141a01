import Mathlib.Data.List.Basic

/-!
Records that are written one after another, and a prefix of what was written.

The prefix holds the frames of some first records in full, and then a part of the next one
that is not all of it.
-/
namespace Frames
open List
variable {α β : Type} (frame : α → List β)

/-- The records whose frames are in the first `n` elements. -/
def cut : Nat → List α → List α
  | _, [] => []
  | n, r :: l => if (frame r).length ≤ n then r :: cut (n - (frame r).length) l else []

/-- What is left behind them. -/
def torn : Nat → List α → List β
  | _, [] => []
  | n, r :: l => if (frame r).length ≤ n then torn (n - (frame r).length) l else (frame r).take n

theorem take_flatMap (n : Nat) (l : List α) :
    (l.flatMap frame).take n = (cut frame n l).flatMap frame ++ torn frame n l := by
  induction l generalizing n with
  | nil => exact take_nil
  | cons r l ih =>
    rw [flatMap_cons, take_append, cut, torn]
    by_cases fits : (frame r).length ≤ n
    · rw [if_pos fits, if_pos fits, take_of_length_le fits, ih, flatMap_cons,
        append_assoc]
    · rw [if_neg fits, if_neg fits, Nat.sub_eq_zero_of_le (Nat.le_of_not_le fits), take_zero,
        append_nil]
      rfl

/-- The next record is the one that is torn. -/
theorem cut_torn (n : Nat) (l : List α) :
    (cut frame n l = l ∧ torn frame n l = []) ∨
      ∃ r later k, l = cut frame n l ++ r :: later ∧ k < (frame r).length ∧
        n = ((cut frame n l).flatMap frame).length + k ∧ torn frame n l = (frame r).take k := by
  induction l generalizing n with
  | nil => exact .inl ⟨rfl, rfl⟩
  | cons r l ih =>
    rw [cut, torn]
    by_cases fits : (frame r).length ≤ n
    · rw [if_pos fits, if_pos fits]
      cases ih (n - (frame r).length) with
      | inl all => exact .inl ⟨by rw [all.1], all.2⟩
      | inr part =>
        obtain ⟨s, later, k, split, short, count, eq⟩ := part
        refine .inr ⟨s, later, k, congrArg (r :: ·) split, short, ?_, eq⟩
        rw [flatMap_cons, length_append]
        omega
    · rw [if_neg fits, if_neg fits]
      exact .inr ⟨r, l, n, rfl, Nat.lt_of_not_le fits, (Nat.zero_add n).symm, rfl⟩

end Frames
