import Mathlib.Logic.Basic

/-!
Computations that may fail, one after another.
-/
namespace Fallible

/-- For runs of two threads, which are numbered in `Fin 2`. -/
instance two_neZero : @NeZero Nat Zero.ofOfNat0 2 := ⟨by decide⟩

variable {ε α β : Type} {x : Except ε α} {f : α → Except ε β} {P : α → Prop} {l : List β}

section Decide
variable {p : α → Prop} [DecidablePred p]

/-- Whether a computation at given values succeeds as expected. -/
instance decidableOk : (x : Except ε α) → Decidable (∃ a, x = .ok a ∧ p a)
  | .ok a => decidable_of_iff (p a) ⟨fun h => ⟨a, rfl, h⟩, by rintro ⟨_, ⟨⟩, h⟩; exact h⟩
  | .error _ => isFalse nofun

instance decidableSome : (x : Option α) → Decidable (∃ a, x = some a ∧ p a)
  | some a => decidable_of_iff (p a) ⟨fun h => ⟨a, rfl, h⟩, by rintro ⟨_, ⟨⟩, h⟩; exact h⟩
  | none => isFalse nofun

instance (priority := low) decidableError [DecidableEq ε] :
    (x : Except ε α) → Decidable (x = .error e)
  | .ok _ => isFalse nofun
  | .error d => decidable_of_iff (d = e) ⟨congrArg _, Except.error.inj⟩

end Decide

theorem bind_eq_ok {b : β} : (x >>= f) = .ok b ↔ ∃ a, x = .ok a ∧ f a = .ok b := by
  cases x with
  | error e => simp [bind, Except.bind]
  | ok a => simp [bind, Except.bind]

theorem bind_ok (run : x = .ok a) (rest : f a = y) : (x >>= f) = y := by
  rw [run]
  exact rest

theorem bind_eq_error : (x >>= f) = .error e ↔ x = .error e ∨ ∃ a, x = .ok a ∧ f a = .error e := by
  cases x with
  | error e => simp [bind, Except.bind]
  | ok a => simp [bind, Except.bind]

theorem bind_ne_error (first : x ≠ .error e) (rest : ∀ a, f a ≠ .error e) :
    (x >>= f) ≠ .error e := by
  intro fails
  cases bind_eq_error.mp fails with
  | inl fails => exact first fails
  | inr later =>
    obtain ⟨a, _, fails⟩ := later
    exact rest a fails

theorem guarded_eq_ok {c : Prop} [Decidable c] :
    (if c then x else .error e) = .ok a ↔ c ∧ x = .ok a := by
  split
  · next holds => exact (and_iff_right holds).symm
  · next fails => exact iff_of_false nofun fun both => fails both.1

/-- Two ways to go on agree where one of them does not end in `e`. -/
theorem bind_agree (ends : (x >>= g) ≠ .error e) (agree : ∀ a, g a ≠ .error e → f a = g a) :
    (x >>= f) = x >>= g := by
  cases x with
  | error e => rfl
  | ok a => exact agree a ends

theorem forM_ok {f : α → Except ε Unit} {l : List α} (ok : ∀ a ∈ l, f a = .ok ()) :
    l.forM f = .ok () := by
  induction l with
  | nil => rfl
  | cons a l ih => exact bind_ok (ok a (.head _)) (ih fun b mem => ok b (.tail a mem))

/-- What each step that succeeds keeps, a run that succeeds keeps. -/
theorem foldlM_invariant {f : α → β → Except ε α} (start : P a)
    (keeps : ∀ a x b, P a → f a x = .ok b → P b) (run : l.foldlM f a = .ok b) : P b := by
  induction l generalizing a with
  | nil =>
    cases run
    exact start
  | cons x l ih =>
    rw [List.foldlM_cons] at run
    obtain ⟨mid, first, rest⟩ := bind_eq_ok.mp run
    exact ih (keeps a x mid start first) rest

/-- The same where a step is taken only if it is allowed. -/
theorem foldlM_guarded {f : α → β → Except ε α} {Allowed : α → β → Prop}
    [∀ a x, Decidable (Allowed a x)] (start : P a)
    (keeps : ∀ a x b, P a → Allowed a x → f a x = .ok b → P b)
    (run : l.foldlM (fun a x => if Allowed a x then f a x else .error e) a = .ok b) : P b := by
  refine foldlM_invariant start (fun a x b h step => ?_) run
  split at step
  · next allowed => exact keeps a x b h allowed step
  · cases step

theorem foldlM_some_invariant {f : α → β → Option α} (start : P a)
    (keeps : ∀ a, ∀ x ∈ l, ∀ b, P a → f a x = some b → P b) (run : l.foldlM f a = some b) :
    P b := by
  induction l generalizing a with
  | nil =>
    cases run
    exact start
  | cons x l ih =>
    rw [List.foldlM_cons] at run
    obtain ⟨mid, first, rest⟩ := Option.bind_eq_some_iff.mp run
    exact ih (keeps a x List.mem_cons_self mid start first)
      (fun a y mem => keeps a y (List.mem_cons_of_mem x mem)) rest

end Fallible
