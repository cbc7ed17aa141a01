import Mathlib

/-!
Replay of a keyed history over a stamped cell.

A cell is a value that remembers the key of the newest action it reflects. A
history is a list of actions in increasing key order. Redo offers every action
to the cell and the stamp decides which of them still has to run. The results
say that redo completes any cell that reflects some part of the history, and
that every cell it produces on the way reflects a part of it again.
-/
namespace StampedReplay
open List
variable {K : Type} [LinearOrder K] {C : Type}

/-- A value together with the key of the newest action it reflects. -/
@[ext] structure Cell (K C : Type) where
  stamp : K
  value : C

/-- An action of a history. An action without an effect leaves the cell alone. -/
structure Action (K C : Type) where
  key : K
  effect : Option (C → C)

namespace Action

def act (a : Action K C) (c : C) : C :=
  match a.effect with
  | none => c
  | some f => f c

/-- The guarded step: an action runs only on a cell with a smaller stamp. -/
def redo (a : Action K C) (s : Cell K C) : Cell K C :=
  match a.effect with
  | none => s
  | some f => if s.stamp < a.key then ⟨a.key, f s.value⟩ else s

end Action

def replay (h : List (Action K C)) (base : C) : C :=
  h.foldl (fun c a => a.act c) base

def redo (h : List (Action K C)) (s : Cell K C) : Cell K C :=
  h.foldl (fun s a => a.redo s) s

/-- The cell is the result of exactly the actions at or below its stamp. -/
def Reflects (base : C) (h : List (Action K C)) (s : Cell K C) : Prop :=
  s.value = replay (h.filter fun a => a.key ≤ s.stamp) base

/-- Every action with an effect is at or below the stamp. -/
def Covered (h : List (Action K C)) (s : Cell K C) : Prop :=
  ∀ a ∈ h, a.effect ≠ none → a.key ≤ s.stamp

def Ordered (h : List (Action K C)) : Prop :=
  h.Pairwise fun a b => a.key < b.key

omit [LinearOrder K] in
theorem replay_append (h t : List (Action K C)) (base : C) :
    replay (h ++ t) base = replay t (replay h base) := by
  simp only [replay, foldl_append]

omit [LinearOrder K] in
@[simp] theorem replay_cons (a : Action K C) (h : List (Action K C)) (base : C) :
    replay (a :: h) base = replay h (a.act base) := rfl

omit [LinearOrder K] in
@[simp] theorem replay_nil (base : C) : replay ([] : List (Action K C)) base = base := rfl

theorem redo_append (h t : List (Action K C)) (s : Cell K C) :
    redo (h ++ t) s = redo t (redo h s) := by
  simp only [redo, foldl_append]

/-- Dropping actions that have no effect does not change a replay. -/
theorem replay_filter_covered (h : List (Action K C)) (s : Cell K C) (base : C)
    (covered : Covered h s) :
    replay (h.filter fun a => a.key ≤ s.stamp) base = replay h base := by
  induction h generalizing base with
  | nil => rfl
  | cons a h ih =>
    have rest := fun c => ih c fun b hb => covered b (mem_cons_of_mem a hb)
    by_cases low : a.key ≤ s.stamp
    · simp only [filter_cons, low, decide_true, ite_true, replay_cons, rest]
    · have idle : a.effect = none := by
        by_contra busy
        exact low (covered a mem_cons_self busy)
      simp only [filter_cons, low, decide_false, Bool.false_eq_true, ite_false,
        replay_cons, rest, Action.act, idle]

variable {s : Cell K C} {a : Action K C}

theorem filter_low (ordered : Ordered (h ++ a :: t)) (low : k < a.key) :
    (h ++ a :: t).filter (fun b => b.key ≤ k) = h.filter fun b => b.key ≤ k := by
  have order := pairwise_append.mp ordered
  have above : ∀ b ∈ a :: t, ¬ b.key ≤ k := by
    intro b hb
    rcases mem_cons.mp hb with rfl | hb
    · exact not_le.mpr low
    · exact not_le.mpr (low.trans ((pairwise_cons.mp order.2.1).1 b hb))
  have none : (a :: t).filter (fun b => b.key ≤ k) = [] :=
    filter_eq_nil_iff.mpr fun b hb => by simpa using above b hb
  rw [filter_append, none, append_nil]

theorem filter_at (ordered : Ordered (h ++ a :: t)) :
    (h ++ a :: t).filter (fun b => b.key ≤ a.key) = h ++ [a] := by
  have order := pairwise_append.mp ordered
  have below : ∀ b ∈ h, b.key ≤ a.key := fun b hb =>
    (order.2.2 b hb a mem_cons_self).le
  have above : ∀ b ∈ t, ¬ b.key ≤ a.key := fun b hb =>
    not_le.mpr ((pairwise_cons.mp order.2.1).1 b hb)
  have all : h.filter (fun b => b.key ≤ a.key) = h :=
    filter_eq_self.mpr fun b hb => by simpa using below b hb
  have none : t.filter (fun b => b.key ≤ a.key) = [] :=
    filter_eq_nil_iff.mpr fun b hb => by simpa using above b hb
  rw [filter_append, filter_cons_of_pos (by simp), all, none]

/-- One offered action keeps the cell a reflection of the history, and the
actions offered so far stay covered. -/
theorem reflects_step (ordered : Ordered (h ++ a :: t)) (reflects : Reflects base (h ++ a :: t) s)
    (covered : Covered h s) :
    Reflects base (h ++ a :: t) (a.redo s) ∧ Covered (h ++ [a]) (a.redo s) := by
  have grows : ∀ s' : Cell K C, s.stamp ≤ s'.stamp →
      (a.effect ≠ none → a.key ≤ s'.stamp) → Covered (h ++ [a]) s' := by
    intro s' le last b hb busy
    rcases mem_append.mp hb with hb | hb
    · exact (covered b hb busy).trans le
    · obtain rfl := mem_singleton.mp hb
      exact last busy
  cases effect : a.effect with
  | none =>
    have same : a.redo s = s := by simp only [Action.redo, effect]
    rw [same]
    exact ⟨reflects, grows s le_rfl fun busy => absurd effect busy⟩
  | some f =>
    by_cases low : s.stamp < a.key
    · have next : a.redo s = ⟨a.key, f s.value⟩ := by
        simp only [Action.redo, effect, low, ite_true]
      rw [next]
      refine ⟨?_, grows _ low.le fun _ => le_rfl⟩
      have value : s.value = replay h base := by
        rw [← replay_filter_covered h s base covered, ← filter_low ordered low]
        exact reflects
      show f s.value = replay ((h ++ a :: t).filter fun b => b.key ≤ a.key) base
      rw [filter_at ordered, replay_append, ← value]
      simp only [replay_cons, replay_nil, Action.act, effect]
    · have same : a.redo s = s := by simp only [Action.redo, effect, low, ite_false]
      rw [same]
      exact ⟨reflects, grows s le_rfl fun _ => not_lt.mp low⟩

/-- Redo of any part of the history leaves a cell that reflects the history. -/
theorem reflects_redo (ordered : Ordered (h ++ t)) (reflects : Reflects base (h ++ t) s) :
    Reflects base (h ++ t) (redo h s) ∧ Covered h (redo h s) := by
  induction h using List.reverseRecOn generalizing t with
  | nil => exact ⟨reflects, by intro a ha; exact absurd ha not_mem_nil⟩
  | append_singleton h a ih =>
    simp only [append_assoc, singleton_append] at ordered reflects ⊢
    obtain ⟨reflects, covered⟩ := ih ordered reflects
    rw [redo_append]
    exact reflects_step ordered reflects covered

/-- Redo of the whole history completes every cell that reflects a part of it. -/
theorem redo_value (ordered : Ordered h) (reflects : Reflects base h s) :
    (redo h s).value = replay h base := by
  have done := reflects_redo (t := []) (by simpa using ordered) (by simpa using reflects)
  rw [append_nil] at done
  rw [done.1, replay_filter_covered h _ base done.2]

/-- Redo takes its stamps from the actions. -/
theorem redo_stamp_lt (keys : ∀ a ∈ h, a.key < bound) (low : s.stamp < bound) :
    (redo h s).stamp < bound := by
  induction h generalizing s with
  | nil => exact low
  | cons a h ih =>
    apply ih fun b hb => keys b (mem_cons_of_mem a hb)
    simp only [Action.redo]
    split
    · exact low
    · split
      · exact keys a mem_cons_self
      · exact low

end StampedReplay
