import Stasis.Logger.FilePool

/-!
The chunk of an offset.

Chunks in increasing order of their offsets cut the log into ranges, the last one open
ended. The lookup of the source names the chunk whose range an offset is in, if the offset
is not in front of the first chunk and less than a full chunk behind the last one.
-/
namespace Stasis.FilePool
open List Option

/-- Offset `x` belongs to chunk `i`. -/
def InChunk (live : List Chunk) (i : Nat) (c : Chunk) (x : Int) : Prop :=
  live[i]? = some c ∧ c.offset ≤ x ∧ ∀ next, live[i + 1]? = some next → x < next.offset

def Sorted (live : List Chunk) : Prop := live.Pairwise fun a b => a.offset < b.offset

section
variable (sorted : Sorted live) {j : Nat}
include sorted

theorem Sorted.lt (ha : live[i]? = some a) (hb : live[j]? = some b) (lt : i < j) :
    a.offset < b.offset := by
  obtain ⟨hi, rfl⟩ := List.getElem?_eq_some_iff.mp ha
  obtain ⟨hj, rfl⟩ := List.getElem?_eq_some_iff.mp hb
  exact pairwise_iff_getElem.mp sorted i j hi hj lt

theorem Sorted.le (ha : live[i]? = some a) (hb : live[j]? = some b) (le : i ≤ j) :
    a.offset ≤ b.offset := by
  cases Nat.lt_or_eq_of_le le with
  | inl lt => exact le_of_lt (sorted.lt ha hb lt)
  | inr eq =>
    subst eq
    exact Int.le_of_eq (congrArg Chunk.offset (some.inj (ha.symm.trans hb)))

theorem InChunk.index_le (ha : live[i]? = some a) (low : a.offset ≤ x) (hb : InChunk live j b x) :
    i ≤ j := by
  refine Nat.le_of_not_lt fun lt => ?_
  have inside := (List.getElem?_eq_some_iff.mp ha).1
  have next := getElem?_eq_getElem (lt_of_le_of_lt lt inside)
  have := hb.2.2 _ next
  have := sorted.le next ha lt
  omega

theorem InChunk.unique (ha : InChunk live i a x) (hb : InChunk live j b x) : i = j :=
  le_antisymm (index_le sorted ha.1 ha.2.1 hb) (index_le sorted hb.1 hb.2.1 ha)

end

variable {live : List Chunk}

theorem getChunkFromOffset_inChunk (h : getChunkFromOffset live x = some i) :
    ∃ c, InChunk live i c x := by
  rw [getChunkFromOffset, getLast?_eq_getElem?] at h
  cases last : live[live.length - 1]? with
  | none => rw [last] at h; exact absurd h (some_ne_none i).symm
  | some c =>
    rw [last] at h
    simp only at h
    split at h
    · next inside =>
      rw [← some.inj h]
      refine ⟨c, last, inside.1, fun next hn => ?_⟩
      have := (List.getElem?_eq_some_iff.mp hn).1
      omega
    · obtain ⟨j, found, eq⟩ := bind_eq_some_iff.mp h
      obtain ⟨inside, high, low⟩ := findIdx?_eq_some_iff_getElem.mp found
      split at eq
      · exact absurd eq (some_ne_none i).symm
      · next pos =>
        have ij : j = i + 1 := by have := some.inj eq; omega
        subst ij
        have hi : i < live.length := by omega
        have low := low i (Nat.lt_succ_self i)
        simp only [decide_eq_true_eq, gt_iff_lt, not_lt] at low high
        refine ⟨live.get ⟨i, hi⟩, getElem?_eq_getElem hi, low, fun next hn => ?_⟩
        obtain ⟨_, rfl⟩ := List.getElem?_eq_some_iff.mp hn
        exact high

section
variable (hf : live.head? = some first) (hl : live.getLast? = some last)
include hf hl

/-- An offset that has no chunk lies in front of the first one or a full chunk behind the
last one. -/
theorem getChunkFromOffset_eq_none (h : getChunkFromOffset live x = none) :
    x < first.offset ∨ last.offset + targetChunkSize ≤ x := by
  rw [getChunkFromOffset, hl] at h
  simp only at h
  split at h
  · exact absurd h (some_ne_none _)
  · next outside =>
    cases found : live.findIdx? fun c => decide (c.offset > x) with
    | none =>
      have below := findIdx?_eq_none_iff.mp found last (mem_of_getLast? hl)
      simp only [gt_iff_lt, decide_eq_false_iff_not, not_lt] at below
      omega
    | some j =>
      rw [found, bind_some] at h
      split at h
      · next zero =>
        obtain ⟨inside, high, _⟩ := findIdx?_eq_some_iff_getElem.mp found
        subst zero
        rw [head?_eq_getElem?, getElem?_eq_getElem inside] at hf
        rw [some.inj hf] at high
        exact .inl (of_decide_eq_true high)
      · exact absurd h (some_ne_none _)

theorem getChunkFromOffset_spec (low : first.offset ≤ x)
    (high : x < last.offset + targetChunkSize) :
    ∃ i c, getChunkFromOffset live x = some i ∧ InChunk live i c x := by
  cases found : getChunkFromOffset live x with
  | none =>
    have := getChunkFromOffset_eq_none hf hl found
    omega
  | some i =>
    obtain ⟨c, inside⟩ := getChunkFromOffset_inChunk found
    exact ⟨i, c, rfl, inside⟩

end

theorem targetChunkSize_pos : 0 < targetChunkSize := by decide

theorem getChunkFromOffset_lt (sorted : Sorted live) (hl : live.getLast? = some last)
    (h : getChunkFromOffset live x = some i) : x < last.offset + targetChunkSize := by
  rw [getChunkFromOffset, hl] at h
  simp only at h
  split at h
  · next inside => exact inside.2
  · obtain ⟨j, found, _⟩ := bind_eq_some_iff.mp h
    obtain ⟨inside, high, _⟩ := findIdx?_eq_some_iff_getElem.mp found
    have le := sorted.le (getElem?_eq_getElem inside) (getLast?_eq_getElem?.symm.trans hl)
      (by omega)
    have high := of_decide_eq_true high
    have := targetChunkSize_pos
    omega

theorem getChunkFromOffset_concat (live : List Chunk) (new : Chunk) :
    getChunkFromOffset (live ++ [new]) new.offset = some ((live ++ [new]).length - 1) := by
  have := targetChunkSize_pos
  rw [getChunkFromOffset, getLast?_concat]
  exact if_pos ⟨le_rfl, by omega⟩

theorem InChunk.concat (h : InChunk live i c x) (behind : x < new.offset) :
    InChunk (live ++ [new]) i c x := by
  have inside := (List.getElem?_eq_some_iff.mp h.1).1
  refine ⟨by rw [getElem?_append_left inside]; exact h.1, h.2.1, fun next hn => ?_⟩
  by_cases more : i + 1 < live.length
  · rw [getElem?_append_left more] at hn
    exact h.2.2 next hn
  · have same : i + 1 = live.length := by omega
    rw [getElem?_append_right (Nat.le_of_eq same.symm), same, Nat.sub_self] at hn
    exact some.inj hn ▸ behind

theorem InChunk.of_concat (h : InChunk (live ++ [new]) i c x) (behind : x < new.offset) :
    InChunk live i c x := by
  have inside := (List.getElem?_eq_some_iff.mp h.1).1
  have old : i < live.length := by
    rw [length_append, length_singleton] at inside
    refine Nat.lt_of_le_of_ne (Nat.le_of_lt_succ inside) fun same => ?_
    have last := h.1
    rw [same, getElem?_concat_length] at last
    have := h.2.1
    rw [← some.inj last] at this
    omega
  refine ⟨by rw [← h.1, getElem?_append_left old], h.2.1, fun next hn => h.2.2 next ?_⟩
  rw [getElem?_append_left (List.getElem?_eq_some_iff.mp hn).1]
  exact hn

theorem inChunk_drop : InChunk (live.drop k) i c x ↔ InChunk live (k + i) c x := by
  rw [InChunk, InChunk, getElem?_drop, getElem?_drop, Nat.add_assoc]

end Stasis.FilePool
