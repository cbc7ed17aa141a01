import Stasis.Operations

/-!
Operations on counters.

A page is seen as one integer record. OPERATION_INCREMENT and
OPERATION_DECREMENT undo each other and neither is idempotent. The two
user-defined operations are the logical pair: the first stands for a nested top
action that incremented a counter, and its undo issues a decrement.
-/
namespace Stasis

def operationIncrement : Nat := 2
def operationDecrement : Nat := 3
def operationUserDefined (x : Nat) : Nat := x + 128

def opIncrement : OperationImpl Int where
  redo := operationIncrement
  undo := operationDecrement
  run := fun _ _ i => i + 1
  runMulti := fun _ => []
  runLogical := fun _ _ _ => []

def opDecrement : OperationImpl Int where
  redo := operationDecrement
  undo := operationIncrement
  run := fun _ _ i => i - 1
  runMulti := fun _ => []
  runLogical := fun _ _ _ => []

def opNoop : OperationImpl Int where
  redo := operationNoop
  undo := operationNoop
  run := fun _ _ i => i
  runMulti := fun _ => []
  runLogical := fun _ _ _ => []

def opLogicalIncrement : OperationImpl Int where
  redo := operationNoop
  undo := operationUserDefined 1
  run := fun _ _ i => i
  runMulti := fun _ => []
  runLogical := fun _ _ _ => []

/-- The undo of the nested top action. The counter that it decrements is page 1. -/
def opLogicalDecrement : OperationImpl Int where
  redo := operationNoop
  undo := operationNoop
  run := fun _ _ i => i
  runMulti := fun _ => []
  runLogical := fun _ _ _ => [⟨operationDecrement, 1, []⟩]

def counterOps : OperationTable Int := fun f =>
  if f = operationIncrement then some opIncrement
  else if f = operationDecrement then some opDecrement
  else if f = operationNoop then some opNoop
  else if f = operationUserDefined 0 then some opLogicalIncrement
  else if f = operationUserDefined 1 then some opLogicalDecrement
  else none

theorem counterOps_cases (h : counterOps f = some op) :
    op = opIncrement ∨ op = opDecrement ∨ op = opNoop ∨ op = opLogicalIncrement ∨
      op = opLogicalDecrement := by
  unfold counterOps at h
  split at h
  · exact .inl (Option.some.inj h).symm
  split at h
  · exact .inr (.inl (Option.some.inj h).symm)
  split at h
  · exact .inr (.inr (.inl (Option.some.inj h).symm))
  split at h
  · exact .inr (.inr (.inr (.inl (Option.some.inj h).symm)))
  split at h
  · exact .inr (.inr (.inr (.inr (Option.some.inj h).symm)))
  · cases h

theorem counterOps_closed : counterOps.Closed := by
  intro f op x u c h v hv
  rcases counterOps_cases h with rfl | rfl | rfl | rfl | rfl
  all_goals simp [opIncrement, opDecrement, opNoop, opLogicalIncrement,
    opLogicalDecrement] at hv
  subst hv
  exact ⟨by decide, _, _, rfl, rfl⟩

end Stasis
