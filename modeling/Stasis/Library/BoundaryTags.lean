import Mathlib.Data.List.Basic

/-!
Blocks that follow one another, each behind a cell with its header.

A header has the size of its block and the size of the block in front of it, so a
block is found from either of its neighbours. A block of size `n` takes `n + 1`
cells.
-/
namespace BoundaryTags
variable {B H : Type} (size : B → Int) (header : B → Int → H)

/-- The cells of the blocks. -/
def span : List B → Int
  | [] => 0
  | b :: l => size b + 1 + span l

/-- The size in front of what follows the blocks. -/
def lastSize (prev : Int) : List B → Int
  | [] => prev
  | b :: l => lastSize (size b) l

/-- The cells with headers, of blocks that start at `a`. -/
def places : Int → List B → List Int
  | _, [] => []
  | a, b :: l => a :: places (a + (size b + 1)) l

/-- The block `c` has its header at `p`. -/
def At : Int → List B → Int → B → Prop
  | _, [], _, _ => False
  | a, b :: l, p, c => p = a ∧ c = b ∨ At (a + (size b + 1)) l p c

/-- The headers of the blocks are in memory, from `a` on. -/
def Laid (mem : Int → Option H) : Int → Int → List B → Prop
  | _, _, [] => True
  | a, prev, b :: l => mem a = some (header b prev) ∧ Laid mem (a + (size b + 1)) (size b) l

variable {size header}

theorem span_append : span size (l ++ l') = span size l + span size l' := by
  induction l with
  | nil => exact (Int.zero_add _).symm
  | cons b l ih =>
    show size b + 1 + span size (l ++ l') = size b + 1 + span size l + span size l'
    omega

theorem span_nonneg (nonneg : ∀ b ∈ l, 0 ≤ size b) : 0 ≤ span size l := by
  induction l with
  | nil => exact Int.le_refl 0
  | cons b l ih =>
    have first := nonneg b (.head _)
    have rest := ih fun c mem => nonneg c (.tail b mem)
    show 0 ≤ size b + 1 + span size l
    omega

theorem lastSize_append :
    lastSize size prev (l ++ l') = lastSize size (lastSize size prev l) l' := by
  induction l generalizing prev with
  | nil => rfl
  | cons b l ih => exact ih

theorem places_append :
    places size a (l ++ l') = places size a l ++ places size (a + span size l) l' := by
  induction l generalizing a with
  | nil =>
    show places size a l' = places size (a + 0) l'
    rw [Int.add_zero]
  | cons b l ih =>
    show a :: places size (a + (size b + 1)) (l ++ l') = _
    rw [ih, Int.add_assoc]
    rfl

theorem laid_append : Laid size header mem a prev (l ++ l') ↔
    Laid size header mem a prev l ∧
      Laid size header mem (a + span size l) (lastSize size prev l) l' := by
  induction l generalizing a prev with
  | nil =>
    show Laid size header mem a prev l' ↔ True ∧ Laid size header mem (a + 0) prev l'
    rw [Int.add_zero, true_and]
  | cons b l ih =>
    show mem a = _ ∧ Laid size header mem _ _ (l ++ l') ↔ (mem a = _ ∧ _) ∧ _
    rw [ih, and_assoc, Int.add_assoc]
    rfl

theorem at_append : At size a (l ++ l') p c ↔
    At size a l p c ∨ At size (a + span size l) l' p c := by
  induction l generalizing a with
  | nil =>
    show At size a l' p c ↔ False ∨ At size (a + 0) l' p c
    rw [Int.add_zero, false_or]
  | cons b l ih =>
    show p = a ∧ c = b ∨ At size _ (l ++ l') p c ↔ (p = a ∧ c = b ∨ _) ∨ _
    rw [ih, or_assoc, Int.add_assoc]
    rfl

theorem at_of_mem_places (mem : p ∈ places size a l) : ∃ c, At size a l p c := by
  induction l generalizing a with
  | nil => cases mem
  | cons b l ih =>
    cases mem with
    | head => exact ⟨b, .inl ⟨rfl, rfl⟩⟩
    | tail _ mem =>
      obtain ⟨c, later⟩ := ih mem
      exact ⟨c, .inr later⟩

/-- The blocks around one of them. -/
theorem At.split (h : At size a l p c) :
    ∃ left right, l = left ++ c :: right ∧ a + span size left = p := by
  induction l generalizing a with
  | nil => cases h
  | cons b l ih =>
    cases h with
    | inl here =>
      rw [here.1, here.2]
      exact ⟨[], l, rfl, Int.add_zero a⟩
    | inr later =>
      obtain ⟨left, right, eq, place⟩ := ih later
      refine ⟨b :: left, right, by rw [eq]; rfl, ?_⟩
      rw [← place, Int.add_assoc]
      rfl

theorem At.mem (h : At size a l p c) : c ∈ l := by
  obtain ⟨left, right, rfl, _⟩ := h.split
  simp

theorem At.mem_places (h : At size a l p c) : p ∈ places size a l := by
  obtain ⟨left, right, rfl, rfl⟩ := h.split
  rw [places_append]
  exact List.mem_append_right _ (.head _)

section
variable {l : List B} (nonneg : ∀ b ∈ l, 0 ≤ size b) (mem : p ∈ places size a l)
include nonneg mem

theorem le_of_mem_places : a ≤ p := by
  obtain ⟨c, h⟩ := at_of_mem_places mem
  obtain ⟨left, right, rfl, rfl⟩ := h.split
  have front := span_nonneg fun b mem => nonneg b (List.mem_append_left _ mem)
  omega

theorem lt_of_mem_places : p < a + span size l := by
  obtain ⟨c, h⟩ := at_of_mem_places mem
  obtain ⟨left, right, rfl, rfl⟩ := h.split
  have first := nonneg c h.mem
  have tail := span_nonneg (l := right) fun b mem => nonneg b (by simp [mem])
  rw [span_append]
  show _ < a + (span size left + (size c + 1 + span size right))
  omega

end

section
variable {l : List B} {b : B} (nonneg : ∀ b ∈ l, 0 ≤ size b) {q : Int} (h : At size a l p b)
include nonneg h

theorem At.order (h' : At size a l q c) (le : p ≤ q) : p = q ∧ b = c ∨ p + size b < q := by
  induction l generalizing a with
  | nil => cases h
  | cons d l ih =>
    have first := nonneg d (.head _)
    have rest := fun e mem => nonneg e (.tail d mem)
    cases h with
    | inl here =>
      cases h' with
      | inl here' => exact .inl ⟨here.1.trans here'.1.symm, here.2.trans here'.2.symm⟩
      | inr later' =>
        have behind := le_of_mem_places rest later'.mem_places
        rw [here.2, here.1]
        omega
    | inr later =>
      cases h' with
      | inl here' =>
        have behind := le_of_mem_places rest later.mem_places
        omega
      | inr later' => exact ih rest later later'

theorem At.unique (h' : At size a l p c) : b = c := by
  have size := nonneg b h.mem
  cases h.order nonneg h' (Int.le_refl p) with
  | inl same => exact same.2
  | inr lt => omega

theorem At.apart (h' : At size a l q c) (lt : p < q) : p + size b < q :=
  (h.order nonneg h' (Int.le_of_lt lt)).resolve_left fun same => Int.ne_of_lt lt same.1

end

theorem Laid.congr (same : ∀ q ∈ places size a l, mem' q = mem q)
    (h : Laid size header mem a prev l) : Laid size header mem' a prev l := by
  induction l generalizing a prev with
  | nil => trivial
  | cons b l ih => exact ⟨(same a (.head _)).trans h.1, ih (fun q hq => same q (.tail _ hq)) h.2⟩

theorem Laid.at (h : Laid size header mem a prev l) (here : At size a l p c) :
    ∃ before, mem p = some (header c before) := by
  obtain ⟨left, right, rfl, rfl⟩ := here.split
  exact ⟨_, (laid_append.mp h).2.1⟩

/-- The memory in which blocks in the middle are replaced, by blocks that take their cells.
The header behind them knows the new size in front. -/
theorem Laid.replace (nonneg : ∀ b ∈ left ++ old ++ right, 0 ≤ size b)
    (nonneg' : ∀ b ∈ new, 0 ≤ size b) (h : Laid size header mem a prev (left ++ old ++ right))
    (same : right ≠ [] → span size new = span size old)
    (middle : Laid size header mem' (a + span size left) (lastSize size prev left) new)
    (next : ∀ s rest, right = s :: rest → mem' (a + span size (left ++ old)) =
      some (header s (lastSize size (lastSize size prev left) new)))
    (others : ∀ q, q ∉ places size (a + span size left) old →
      q ∉ places size (a + span size left) new → (right ≠ [] → q ≠ a + span size (left ++ old)) →
      mem' q = mem q) : Laid size header mem' a prev (left ++ new ++ right) := by
  have nonnegOld : ∀ b ∈ old, 0 ≤ size b := fun b mem => nonneg b (by simp [mem])
  rw [laid_append, laid_append] at h ⊢
  refine ⟨⟨h.1.1.congr fun q hq => ?_, middle⟩, ?_⟩
  · have front := lt_of_mem_places (fun b mem => nonneg b (by simp [mem])) hq
    refine others q (fun mem => ?_) (fun mem => ?_) fun _ eq => ?_
    · exact Int.not_le.mpr front (le_of_mem_places nonnegOld mem)
    · exact Int.not_le.mpr front (le_of_mem_places nonneg' mem)
    · have tail := span_nonneg nonnegOld
      rw [span_append] at eq
      omega
  · cases right with
    | nil => trivial
    | cons s rest =>
      have same := same (List.cons_ne_nil s rest)
      have place : a + span size (left ++ new) = a + span size (left ++ old) := by
        rw [span_append, span_append, same]
      rw [place, lastSize_append]
      refine ⟨next s rest rfl, h.2.2.congr fun q hq => ?_⟩
      have first := nonneg s (by simp)
      have later := le_of_mem_places (fun b mem => nonneg b (by simp [mem])) hq
      rw [span_append] at later
      refine others q (fun mem => ?_) (fun mem => ?_) fun _ eq => ?_
      · have before := lt_of_mem_places nonnegOld mem
        omega
      · have before := lt_of_mem_places nonneg' mem
        omega
      · rw [span_append] at eq
        omega

end BoundaryTags
