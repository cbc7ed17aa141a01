import Stasis.Page.Checked
import Stasis.Library.Fallible

/-!
Pages with empty records.

pre_alloc compares the size of a record with the free space, and for an empty
record that says nothing about the slot it needs. slotted_free gives the space of
the last record back without regard to empty records behind its start. Where
neither happens, and the free list visits the free slots, the pages pass the
check.
-/
namespace Stasis.Slotted
open Memory Option

namespace PageOp

/-- The calls on a page whose records may be empty. -/
def AllowedEmpty (p : Bytes) : PageOp → Prop
  | .alloc type _ => ∃ size, recordTypeToSize type = some size
  | .allocSlot .. => False
  | .free n => Live p n
  | .setType .. => False
  | .compact _ => True

/-- There is room for the slot of an empty record, and no empty record is in the space that is
given back. -/
def Harmless (p : Bytes) : PageOp → Prop
  | .alloc type _ => recordTypeToSize type = some 0 → Room p (offered p) 0
  | .free n => Clear p n
  | _ => True

theorem run_sound (h : Sound p) (op : PageOp) (allowed : op.AllowedEmpty p)
    (harmless : op.Harmless p) : ∃ q, op.run p = some q ∧ Sound q := by
  cases op with
  | alloc type buffer =>
    obtain ⟨size, known⟩ := allowed
    have nonneg := size_nonneg known
    have fit : 1 ≤ size ∨ 0 ≤ size ∧ Room p (offered p) size := by
      by_cases empty : size = 0
      · rw [empty] at known ⊢
        exact .inr ⟨le_rfl, harmless known⟩
      · exact .inl (by omega)
    obtain ⟨n, eq, unused⟩ := preAlloc_spec h known fit
    rw [run, eq, bind_some]
    by_cases none : n = invalidSlot
    · exact ⟨p, if_pos none, h⟩
    · obtain ⟨_, low, _, room⟩ := unused none
      obtain ⟨q, post, sound, _⟩ := postAlloc_sound buffer h low known (.inr ⟨nonneg, room⟩)
        fun q' compacted => compact_room h.toArranged compacted room
      exact ⟨q, (if_neg none).trans post, sound⟩
  | allocSlot n type buffer => exact absurd allowed id
  | free n =>
    obtain ⟨q, eq, sound, _⟩ := free_sound h allowed harmless
    exact ⟨q, eq, sound⟩
  | setType n type => exact absurd allowed id
  | compact buffer =>
    obtain ⟨q, eq, out⟩ := compact_rebuilt h.toArranged buffer
    exact ⟨q, eq, out.sound⟩

end PageOp

/-- The pages that such calls make of `start`. -/
inductive ReachableEmpty (start : Bytes) : Bytes → Prop
  | start : ReachableEmpty start start
  | step {p q : Bytes} (op : PageOp) (reached : ReachableEmpty start p)
      (allowed : op.AllowedEmpty p) (harmless : op.Harmless p) (run : op.run p = some q) :
      ReachableEmpty start q

theorem reachableEmpty_sound (h : Sound start) (reached : ReachableEmpty start p) : Sound p := by
  induction reached with
  | start => exact h
  | step op _ allowed harmless run ih =>
    obtain ⟨q', run', sound⟩ := op.run_sound ih allowed harmless
    exact some.inj (run'.symm.trans run) ▸ sound

/-- From a page that passes the check and whose free list visits each free slot once, such calls
succeed and give pages that pass the check and keep the directory apart from the records. -/
theorem empty_records_safe {start p : Bytes} (passed : check start = true)
    (list : ∃ l, FreeList start invalidSlot l) (reached : ReachableEmpty start p) :
    check p = true ∧ (∀ i, Live p i → slot p i + extent p i ≤ slotListStart p) ∧
      ∀ op : PageOp, op.AllowedEmpty p → op.Harmless p →
        ∃ q, op.run p = some q ∧ check q = true ∧
          ∀ i, Live q i → slot q i + extent q i ≤ slotListStart q := by
  have apart : ∀ {q : Bytes}, Sound q → ∀ i, Live q i →
      slot q i + extent q i ≤ slotListStart q :=
    fun h i live => le_trans (h.inside i live) h.freespace_le
  have sound := reachableEmpty_sound ⟨arranged_of_check passed, list⟩ reached
  refine ⟨check_of_sound sound, apart sound, ?_⟩
  intro op allowed harmless
  obtain ⟨q, run, after⟩ := op.run_sound sound allowed harmless
  exact ⟨q, run, check_of_sound after, apart after⟩

/-- Allocate records of the given sizes. -/
def allocAll (p : Bytes) (sizes : List Int) : Option Bytes :=
  sizes.foldlM (fun p size => (PageOp.alloc size fun _ => 0).run p) p

theorem allocAll_sound (h : Sound p) (pos : ∀ size ∈ sizes, 1 ≤ size)
    (run : allocAll p sizes = some q) : Sound q := by
  refine Fallible.foldlM_some_invariant h (fun p size mem q h first => ?_) run
  have low : 1 ≤ size := pos size mem
  have known : recordTypeToSize size = some size := if_pos (by omega)
  obtain ⟨q', first', sound⟩ := PageOp.run_sound h (.alloc size fun _ => 0) ⟨size, known⟩ (by
    intro empty
    rw [known] at empty
    cases empty
    omega)
  cases first.symm.trans first'
  exact sound

def emptyPage : Bytes := initializePageRaw fun _ => 0

theorem emptyPage_sound : Sound emptyPage := (initializePageRaw_valid _).sound

/-- An empty record in front of another one, which is then freed. -/
theorem empty_records_safe_freed :
    ∃ p q, ReachableEmpty emptyPage p ∧ Live p 0 ∧ extent p 0 = 0 ∧
      (PageOp.free 1).run p = some q ∧ check q = true := by
  obtain ⟨mid, ran, p, ran', slots, offset, offset', length⟩ :
      ∃ mid, (PageOp.alloc 0 fun _ => 0).run emptyPage = some mid ∧
        ∃ p, (PageOp.alloc 5 fun _ => 0).run mid = some p ∧ numslots p = 2 ∧ slot p 0 = 0 ∧
          slot p 1 = 0 ∧ slotLength p 0 = 0 := by
    decide +kernel
  have placed : ReachableEmpty emptyPage mid :=
    .step (.alloc 0 fun _ => 0) .start ⟨0, rfl⟩ (fun _ => by rw [Room]; decide +kernel) ran
  have reached : ReachableEmpty emptyPage p :=
    .step (.alloc 5 fun _ => 0) placed ⟨5, rfl⟩ (fun empty => absurd empty (by decide)) ran'
  have clear : Clear p 1 := by
    intro _ i live _ ne
    have first : i = 0 := by
      have := live.1
      have := live.2.1
      omega
    rw [first, offset, offset']
  have live : ∀ i, 0 ≤ i → i < 2 → slot p i = 0 → Live p i := by
    intro i low high eq
    refine ⟨low, by omega, ?_⟩
    rw [eq]
    decide
  obtain ⟨_, _, steps⟩ :=
    empty_records_safe (check_of_sound emptyPage_sound) emptyPage_sound.list reached
  obtain ⟨q, run, passed, _⟩ := steps (.free 1) (live 1 (by decide) (by decide) offset') clear
  refine ⟨p, q, reached, live 0 (by decide) (by decide) offset, ?_, run, passed⟩
  rw [extent, length]
  rfl

/-- Two records and their slots fill the page. The slot of an empty record then lies on the last
bytes of the second record. -/
theorem alloc_empty_on_full_page :
    ∃ p q, check p = true ∧ preAlloc p 0 = some 2 ∧ (PageOp.alloc 0 fun _ => 0).run p = some q ∧
      Live q 1 ∧ slotListStart q < slot q 1 + extent q 1 := by
  obtain ⟨p, run, offer, q, facts⟩ : ∃ p, allocAll emptyPage [4000, 70] = some p ∧
      preAlloc p 0 = some 2 ∧ ∃ q, (PageOp.alloc 0 fun _ => 0).run p = some q ∧ Live q 1 ∧
        slotListStart q < slot q 1 + extent q 1 := by
    decide +kernel
  have sound := allocAll_sound emptyPage_sound (by decide) run
  exact ⟨p, q, check_of_sound sound, offer, facts⟩

theorem free_in_front_of_empty :
    ∃ p q, check p = true ∧ Live p 0 ∧ (PageOp.free 0).run p = some q ∧ Live q 1 ∧
      freespace q < slot q 1 + slotLength q 1 ∧ check q = false := by
  obtain ⟨p, _, passed, live, q, facts⟩ : ∃ p, allocAll emptyPage [10, 0] = some p ∧
      check p = true ∧ Live p 0 ∧ ∃ q, (PageOp.free 0).run p = some q ∧ Live q 1 ∧
        freespace q < slot q 1 + slotLength q 1 ∧ check q = false := by
    decide +kernel
  exact ⟨p, q, passed, live, facts⟩

/-- The check does not find a free slot that the free list misses. Slot 1 links to slot 2, which is
also the head of the list, and slot 2 stays the head when it is allocated. -/
theorem free_with_missed_slot :
    ∃ p q r, check p = true ∧ (PageOp.alloc 1 fun _ => 0).run p = some q ∧ Live q 0 ∧
      (PageOp.free 0).run q = some r ∧ check r = false := by
  obtain ⟨p, _, passed, q, run, live, r, facts⟩ :
      ∃ p, ((allocAll emptyPage [1, 1, 1, 1]).bind (PageOp.free 2).run).bind (PageOp.free 1).run =
          some p ∧ check (setFreelist p 2) = true ∧
        ∃ q, (PageOp.alloc 1 fun _ => 0).run (setFreelist p 2) = some q ∧ Live q 0 ∧
          ∃ r, (PageOp.free 0).run q = some r ∧ check r = false := by
    decide +kernel
  exact ⟨setFreelist p 2, q, r, passed, run, live, facts⟩

/-- Each part of the condition is needed. -/
theorem empty_records_unsafe :
    (∃ p q, check p = true ∧ preAlloc p 0 = some 2 ∧ (PageOp.alloc 0 fun _ => 0).run p = some q ∧
      Live q 1 ∧ slotListStart q < slot q 1 + extent q 1) ∧
    (∃ p q, check p = true ∧ Live p 0 ∧ (PageOp.free 0).run p = some q ∧ Live q 1 ∧
      freespace q < slot q 1 + slotLength q 1 ∧ check q = false) ∧
    ∃ p q r, check p = true ∧ (PageOp.alloc 1 fun _ => 0).run p = some q ∧ Live q 0 ∧
      (PageOp.free 0).run q = some r ∧ check r = false :=
  ⟨alloc_empty_on_full_page, free_in_front_of_empty, free_with_missed_slot⟩

end Stasis.Slotted
