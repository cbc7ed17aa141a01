import Mathlib.Data.Option.Basic

/-!
Deterministic machines with a partial step function.

A step that gives `none` is a failure of the machine. `Reaches` is the run from
one state to another in some number of successful steps.
-/
namespace Machine
variable {S : Type} {step : S → Option S}

def steps (step : S → Option S) : Nat → S → Option S
  | 0, s => some s
  | n + 1, s => (step s).bind (steps step n)

def Reaches (step : S → Option S) (s s' : S) : Prop :=
  ∃ n, steps step n s = some s'

namespace Reaches

theorem refl (s : S) : Reaches step s s := ⟨0, rfl⟩

theorem head (first : step s = some s') (rest : Reaches step s' s'') :
    Reaches step s s'' := by
  obtain ⟨n, rest⟩ := rest
  exact ⟨n + 1, by simp [steps, first, rest]⟩

theorem single (first : step s = some s') : Reaches step s s' :=
  head first (refl s')

/-- What every successful step keeps, a run keeps. -/
theorem invariant {P : S → Prop} (run : Reaches step s s')
    (keeps : ∀ s s', P s → step s = some s' → P s') (start : P s) : P s' := by
  obtain ⟨n, run⟩ := run
  induction n generalizing s with
  | zero =>
    cases run
    exact start
  | succ n ih =>
    simp only [steps, Option.bind_eq_some_iff] at run
    obtain ⟨mid, first, rest⟩ := run
    exact ih (keeps s mid start first) rest

end Reaches

/-- A machine that succeeds on every state of a ranked invariant and brings the
rank down until the goal holds reaches the goal. -/
theorem reaches_of_rank {T : Type} {r : T → T → Prop} (wf : WellFounded r)
    {P : T → S → Prop} {g : S → Prop}
    (advance : ∀ t s, P t s → ¬ g s → ∃ t' s', step s = some s' ∧ P t' s' ∧ r t' t)
    (t : T) (s : S) (start : P t s) : ∃ t' s', Reaches step s s' ∧ P t' s' ∧ g s' := by
  induction t using wf.induction generalizing s with
  | _ t ih =>
    by_cases done : g s
    · exact ⟨t, s, Reaches.refl s, start, done⟩
    · obtain ⟨t', mid, first, keep, less⟩ := advance t s start done
      obtain ⟨t'', s', rest, finish⟩ := ih t' less mid keep
      exact ⟨t'', s', Reaches.head first rest, finish⟩

end Machine
