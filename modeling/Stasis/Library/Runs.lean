import Stasis.Library.Fallible

/-!
Systems whose steps are chosen from outside, and may fail.

A run takes steps that are allowed and that succeed.
-/
namespace Runs
variable {S A E : Type}

inductive Reached (run : S → A → Except E S) (Allowed : S → A → Prop) (start : S) : S → Prop
  | start : Reached run Allowed start start
  | step {s after : S} (before : Reached run Allowed start s) (a : A) (allowed : Allowed s a)
      (ran : run s a = .ok after) : Reached run Allowed start after

variable {run : S → A → Except E S} {Allowed : S → A → Prop} {start s : S}

/-- What holds at the start and is kept by each step of a run holds in every state of it. -/
theorem Reached.invariant {P : S → Prop} (first : P start)
    (keeps : ∀ s a after, Reached run Allowed start s → P s → Allowed s a → run s a = .ok after →
      P after) (h : Reached run Allowed start s) : P s := by
  induction h with
  | start => exact first
  | step before a allowed ran ih => exact keeps _ a _ before ih allowed ran

/-- A run with other names for the steps. -/
theorem Reached.rename {A' : Type} {Allowed' : S → A' → Prop} (name : A' → A)
    (allows : ∀ s a, Allowed' s a → Allowed s (name a))
    (h : Reached (fun s a => run s (name a)) Allowed' start s) : Reached run Allowed start s := by
  induction h with
  | start => exact .start
  | step before a allowed ran ih => exact ih.step (name a) (allows _ a allowed) ran

section Closed
variable [∀ s a, Decidable (Allowed s a)]

/-- A step that is taken if it is allowed. -/
def tryStep (run : S → A → Except E S) (Allowed : S → A → Prop) [∀ s a, Decidable (Allowed s a)]
    (s : S) (a : A) : Option S :=
  if Allowed s a then (run s a).toOption else none

theorem Reached.steps {l : List A} (h : Reached run Allowed start s)
    (ran : l.foldlM (tryStep run Allowed) s = some after) : Reached run Allowed start after := by
  induction l generalizing s with
  | nil =>
    cases ran
    exact h
  | cons a l ih =>
    rw [List.foldlM_cons] at ran
    obtain ⟨mid, first, rest⟩ := Option.bind_eq_some_iff.mp ran
    rw [tryStep] at first
    split at first
    · next allowed =>
      refine ih (h.step a allowed ?_) rest
      cases result : run s a with
      | error e =>
        rw [result] at first
        cases first
      | ok next =>
        rw [result] at first
        cases first
        rfl
    · cases first

theorem Reached.of_steps {p : S → Prop} (l : List A)
    (ran : ∃ s, l.foldlM (tryStep run Allowed) start = some s ∧ p s) :
    ∃ s, Reached run Allowed start s ∧ p s :=
  ran.imp fun _ => .imp Reached.start.steps id

end Closed

end Runs
