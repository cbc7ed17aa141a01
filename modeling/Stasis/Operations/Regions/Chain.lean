import Mathlib.Data.List.Induction
import Stasis.Library.BoundaryTags
import Stasis.Operations.Regions

/-!
The chain of the regions.

The tags in the page file are those of a list of regions, and all other tags are
condemned. A region may be changed, merged with the next one or split; the page file
then has the tags of the new list, if the tag behind the change is told the new size.
-/
namespace Stasis.Regions
open BoundaryTags Function List

/-- What is in a tag, apart from the size of the region in front. -/
structure Region where
  size : Int
  status : Status
  regionXidFp : Fingerprint
  allocationManager : Int
deriving DecidableEq, Repr

def Region.tag (r : Region) (prevSize : Int) : BoundaryTag :=
  ⟨r.size, prevSize, r.status, r.regionXidFp, r.allocationManager⟩

def regionSpan (l : List Region) : Int := span Region.size l

/-- The size in front of the region behind `l`. -/
def sizeInFront (l : List Region) : Int := lastSize Region.size pageidMax l

/-- The region `r` has its tag on page `p`. -/
def TagAt (l : List Region) (p : Int) (r : Region) : Prop := At Region.size 0 l p r

/-- The last region, and no other one, has the largest size there is. -/
def Closed : List Region → Prop
  | [] => False
  | [r] => r.size = pageidMax
  | r :: s :: l => 0 ≤ r.size ∧ r.size < pageidMax ∧ Closed (s :: l)

/-- What the assertions say of the size in front of a page. -/
def PrevOk (page prevSize : Int) : Prop :=
  page = 0 ∧ prevSize = pageidMax ∨ page ≠ 0 ∧ prevSize < pageidMax / 2

def Orphan (page : Int) (t : BoundaryTag) : Prop :=
  t.status = .condemned ∧ PrevOk page t.prevSize

structure Chain (tags : Int → Option BoundaryTag) (l : List Region) : Prop where
  laid : Laid Region.size Region.tag tags 0 pageidMax l
  closed : Closed l
  low : ∀ p ∈ places Region.size 0 l, p < pageidMax / 2
  kinds : ∀ r ∈ l, r.status = .vacant ∨ r.status = .zoned
  orphans : ∀ p t, tags p = some t → p ∉ places Region.size 0 l → Orphan p t

theorem closed_append : Closed (left ++ r :: right) ↔
    (∀ x ∈ left, 0 ≤ x.size ∧ x.size < pageidMax) ∧ Closed (r :: right) := by
  induction left with
  | nil => exact ⟨fun h => ⟨fun x mem => (by cases mem), h⟩, fun h => h.2⟩
  | cons x left ih =>
    have unfolded : Closed (x :: (left ++ r :: right)) ↔
        0 ≤ x.size ∧ x.size < pageidMax ∧ Closed (left ++ r :: right) := by
      cases left with
      | nil => exact Iff.rfl
      | cons y left => exact Iff.rfl
    rw [cons_append, unfolded, ih]
    refine ⟨fun ⟨low, high, rest, last⟩ => ⟨fun y mem => ?_, last⟩, fun ⟨all, last⟩ => ?_⟩
    · cases mem with
      | head => exact ⟨low, high⟩
      | tail _ mem => exact rest y mem
    · have first := all x (.head _)
      exact ⟨first.1, first.2, fun y mem => all y (.tail x mem), last⟩

theorem Closed.bounded (h : Closed l) : ∀ r ∈ l, 0 ≤ r.size ∧ r.size ≤ pageidMax := by
  intro r mem
  obtain ⟨left, right, rfl⟩ := append_of_mem mem
  have rest := (closed_append.mp h).2
  cases right with
  | nil => exact ⟨(show r.size = pageidMax from rest) ▸ (by decide), Int.le_of_eq rest⟩
  | cons s right => exact ⟨rest.1, le_of_lt rest.2.1⟩

theorem Closed.nonneg (h : Closed l) : ∀ r ∈ l, 0 ≤ r.size := fun r mem => (h.bounded r mem).1

theorem Closed.last_iff (h : Closed (left ++ r :: right)) : r.size = pageidMax ↔ right = [] := by
  have rest := (closed_append.mp h).2
  cases right with
  | nil => exact ⟨fun _ => rfl, fun _ => rest⟩
  | cons s right =>
    refine ⟨fun eq => ?_, fun eq => by cases eq⟩
    exact absurd eq (ne_of_lt rest.2.1)

theorem Closed.relabel (h : Closed (left ++ r :: right)) (same : s.size = r.size) :
    Closed (left ++ s :: right) := by
  rw [closed_append] at h ⊢
  refine ⟨h.1, ?_⟩
  cases right with
  | nil => exact same.trans h.2
  | cons x right => exact ⟨same ▸ h.2.1, same ▸ h.2.2.1, h.2.2.2⟩

section
variable (h : Closed l) (hr : TagAt l p r) (last : r.size = pageidMax)
include h hr last

theorem Closed.last_at (hs : TagAt l q s) : q = p ∨ s.size < pageidMax := by
  obtain ⟨left, right, rfl, place⟩ := At.split hr
  rw [h.last_iff.mp last] at hs
  cases at_append.mp hs with
  | inl front => exact .inr ((closed_append.mp h).1 s front.mem).2
  | inr here =>
    cases here with
    | inl here => exact .inl (here.1.trans place)
    | inr none => cases none

theorem Closed.le_last (mem : q ∈ places Region.size 0 l) : q ≤ p := by
  obtain ⟨left, right, rfl, place⟩ := At.split hr
  rw [h.last_iff.mp last, places_append, mem_append] at mem
  cases mem with
  | inl front =>
    have lt := lt_of_mem_places (fun b mem => ((closed_append.mp h).1 b mem).1) front
    omega
  | inr here =>
    rw [mem_singleton.mp here]
    exact Int.le_of_eq place

end

theorem half_lt : pageidMax / 2 < pageidMax := by decide

theorem PrevOk.read (h : PrevOk page prevSize) :
    page = 0 ∧ prevSize = pageidMax ∨ page ≠ 0 ∧ prevSize ≠ pageidMax := by
  have half := half_lt
  cases h with
  | inl first => exact .inl first
  | inr later => exact .inr ⟨later.1, by omega⟩

namespace Chain

theorem nonneg (h : Chain tags l) : ∀ r ∈ l, 0 ≤ r.size := h.closed.nonneg

theorem held (h : Chain tags (left ++ r :: right)) :
    tags (regionSpan left) = some (r.tag (sizeInFront left)) := by
  have laid := (laid_append.mp h.laid).2.1
  rw [Int.zero_add] at laid
  exact laid

theorem next (h : Chain tags (left ++ r :: s :: right)) :
    tags (regionSpan left + (r.size + 1)) = some (s.tag r.size) := by
  have laid := (laid_append.mp h.laid).2.2.1
  rw [Int.zero_add] at laid
  exact laid

theorem mem_places (left : List Region) (r : Region) (right : List Region) :
    regionSpan left ∈ places Region.size 0 (left ++ r :: right) := by
  rw [places_append, Int.zero_add]
  exact mem_append_right _ (.head _)

theorem span_low (h : Chain tags (left ++ r :: right)) :
    0 ≤ regionSpan left ∧ regionSpan left < pageidMax / 2 := by
  exact ⟨span_nonneg fun b mem => h.nonneg b (by simp [mem]), h.low _ (mem_places left r right)⟩

theorem span_concat : regionSpan (left ++ [r]) = regionSpan left + (r.size + 1) := by
  rw [regionSpan, span_append]
  show _ + (r.size + 1 + 0) = _
  rw [Int.add_zero]
  rfl

theorem inFront_concat : sizeInFront (left ++ [r]) = r.size := by
  rw [sizeInFront, lastSize_append]
  rfl

theorem next_low (h : Chain tags (left ++ r :: s :: right)) :
    regionSpan left + (r.size + 1) < pageidMax / 2 := by
  rw [append_cons] at h
  have low := h.span_low.2
  rw [span_concat] at low
  exact low

theorem prevOk_next (h : Chain tags (left ++ r :: s :: right)) :
    PrevOk (regionSpan left + (r.size + 1)) r.size := by
  have low := h.next_low
  have first := h.span_low.1
  have size := h.nonneg r (by simp)
  exact .inr ⟨by omega, by omega⟩

theorem prevOk (h : Chain tags (left ++ r :: right)) :
    PrevOk (regionSpan left) (sizeInFront left) := by
  cases left using List.reverseRecOn with
  | nil => exact .inl ⟨rfl, rfl⟩
  | append_singleton left x =>
    rw [← append_cons] at h
    rw [span_concat, inFront_concat]
    exact h.prevOk_next

theorem replace (h : Chain tags (left ++ old ++ right)) (closed : Closed (left ++ new ++ right))
    (low : ∀ p ∈ places Region.size (regionSpan left) new, p < pageidMax / 2)
    (kinds : ∀ r ∈ new, r.status = .vacant ∨ r.status = .zoned)
    (same : right ≠ [] → regionSpan new = regionSpan old)
    (middle : Laid Region.size Region.tag tags' (regionSpan left) (sizeInFront left) new)
    (next : ∀ s rest, right = s :: rest → tags' (regionSpan (left ++ old)) =
      some (s.tag (lastSize Region.size (sizeInFront left) new)))
    (gone : ∀ q ∈ places Region.size (regionSpan left) old,
      q ∉ places Region.size (regionSpan left) new → ∀ t, tags' q = some t → Orphan q t)
    (others : ∀ q, q ∉ places Region.size (regionSpan left) old →
      q ∉ places Region.size (regionSpan left) new →
      (right ≠ [] → q ≠ regionSpan (left ++ old)) → tags' q = tags q) :
    Chain tags' (left ++ new ++ right) := by
  have places_right : places Region.size (regionSpan (left ++ new)) right =
      places Region.size (regionSpan (left ++ old)) right := by
    cases right with
    | nil => rfl
    | cons s rest =>
      have eq := same (cons_ne_nil s rest)
      simp only [regionSpan, span_append] at eq ⊢
      rw [eq]
  have split : ∀ mid, places Region.size 0 (left ++ mid ++ right) =
      places Region.size 0 left ++ places Region.size (regionSpan left) mid ++
        places Region.size (regionSpan (left ++ mid)) right := by
    intro mid
    rw [places_append, places_append, Int.zero_add, Int.zero_add]
    rfl
  refine ⟨?_, closed, fun p mem => ?_, fun r mem => ?_, fun p t held out => ?_⟩
  · refine h.laid.replace h.nonneg (fun b mem => closed.nonneg b (by simp [mem])) same ?_ ?_ ?_
    · rw [Int.zero_add]
      exact middle
    · rw [Int.zero_add]
      exact next
    · rw [Int.zero_add, Int.zero_add]
      exact others
  · rw [split, places_right] at mem
    rcases mem_append.mp mem with mem | mem
    · rcases mem_append.mp mem with mem | mem
      · exact h.low p (by rw [split]; simp [mem])
      · exact low p mem
    · exact h.low p (by rw [split]; simp [mem])
  · rcases mem_append.mp mem with mem | mem
    · rcases mem_append.mp mem with mem | mem
      · exact h.kinds r (by simp [mem])
      · exact kinds r mem
    · exact h.kinds r (by simp [mem])
  · rw [split, places_right, mem_append, mem_append, not_or, not_or] at out
    by_cases mem : p ∈ places Region.size (regionSpan left) old
    · exact gone p mem out.1.2 t held
    · rw [others p mem out.1.2 fun more eq => ?_] at held
      · refine h.orphans p t held ?_
        rw [split, mem_append, mem_append, not_or, not_or]
        exact ⟨⟨out.1.1, mem⟩, out.2⟩
      · obtain ⟨s, rest, rfl⟩ := exists_cons_of_ne_nil more
        rw [eq] at out
        exact out.2 (.head _)

theorem relabel (h : Chain tags (left ++ r :: right)) (size : s.size = r.size)
    (kind : s.status = .vacant ∨ s.status = .zoned) :
    Chain (update tags (regionSpan left) (some (s.tag (sizeInFront left))))
      (left ++ s :: right) := by
  have low := h.span_low.2
  have nonneg := h.nonneg r (by simp)
  have closed := h.closed.relabel size
  have next : ∀ x rest, right = x :: rest →
      update tags (regionSpan left) (some (s.tag (sizeInFront left)))
        (regionSpan (left ++ [r])) = some (x.tag s.size) := by
    intro x rest eq
    rw [eq] at h
    rw [span_concat, update_of_ne (by omega), h.next, size]
  rw [append_cons] at h closed ⊢
  refine h.replace closed (fun p mem => ?_) (fun x mem => ?_) (fun _ => ?_)
    ⟨update_self .., trivial⟩ next (fun q mem out => absurd mem out) fun q out _ _ => ?_
  · rw [mem_singleton.mp mem]
    exact low
  · rw [mem_singleton.mp mem]
    exact kind
  · simp only [regionSpan, BoundaryTags.span, size]
  · exact update_of_ne (fun eq => out (mem_singleton.mpr eq)) ..

theorem merge (h : Chain tags (left ++ a :: b :: right))
    (size : right ≠ [] → m.size = a.size + b.size + 1) (last : right = [] → m.size = pageidMax)
    (kind : m.status = .vacant ∨ m.status = .zoned)
    (here : tags' (regionSpan left) = some (m.tag (sizeInFront left)))
    (gone : ∃ t, tags' (regionSpan left + (a.size + 1)) = some t ∧
      Orphan (regionSpan left + (a.size + 1)) t) (next : ∀ s rest, right = s :: rest →
      tags' (regionSpan left + (a.size + 1) + (b.size + 1)) = some (s.tag m.size))
    (others : ∀ q, q ≠ regionSpan left → q ≠ regionSpan left + (a.size + 1) →
      (right ≠ [] → q ≠ regionSpan left + (a.size + 1) + (b.size + 1)) → tags' q = tags q) :
    Chain tags' (left ++ m :: right) := by
  have first := h.span_low
  have positive := h.nonneg a (by simp)
  have positive' := h.nonneg b (by simp)
  have closed : Closed (left ++ m :: right) := by
    have closed := closed_append.mp h.closed
    refine closed_append.mpr ⟨closed.1, ?_⟩
    cases right with
    | nil => exact last rfl
    | cons s right =>
      have size := size (cons_ne_nil s right)
      rw [append_cons] at h
      have low := h.next_low
      have half := half_lt
      rw [span_concat] at low
      exact ⟨by omega, by omega, closed.2.2.2.2.2⟩
  have place : regionSpan (left ++ [a, b]) =
      regionSpan left + (a.size + 1) + (b.size + 1) := by
    rw [append_cons, span_concat, span_concat]
  rw [show left ++ a :: b :: right = left ++ [a, b] ++ right by simp] at h
  rw [append_cons] at closed ⊢
  refine h.replace closed (fun p mem => ?_) (fun x mem => ?_) (fun more => ?_) ⟨here, trivial⟩
    (place ▸ next) (fun q mem out t held => ?_) fun q out _ behind => ?_
  · rw [mem_singleton.mp mem]
    exact first.2
  · rw [mem_singleton.mp mem]
    exact kind
  · have size := size more
    show m.size + 1 + 0 = a.size + 1 + (b.size + 1 + 0)
    omega
  · obtain ⟨orphan, there, condemned⟩ := gone
    rcases mem_cons.mp mem with eq | mem
    · exact absurd (mem_singleton.mpr eq) out
    · rw [mem_singleton.mp mem, there] at held
      rw [mem_singleton.mp mem, ← Option.some.inj held]
      exact condemned
  · rw [place] at behind
    simp only [places, mem_cons, not_mem_nil, or_false, not_or] at out
    exact others q out.1 out.2 behind

theorem split (h : Chain tags (left ++ r :: right)) (nonneg : 0 ≤ z.size)
    (size : right ≠ [] → z.size + v.size + 1 = r.size) (positive : right ≠ [] → 0 ≤ v.size)
    (last : right = [] → v.size = pageidMax)
    (low : regionSpan left + (z.size + 1) < pageidMax / 2)
    (kind : z.status = .vacant ∨ z.status = .zoned)
    (kind' : v.status = .vacant ∨ v.status = .zoned)
    (here : tags' (regionSpan left) = some (z.tag (sizeInFront left)))
    (new : tags' (regionSpan left + (z.size + 1)) = some (v.tag z.size))
    (next : ∀ s rest, right = s :: rest →
      tags' (regionSpan left + (r.size + 1)) = some (s.tag v.size))
    (others : ∀ q, q ≠ regionSpan left → q ≠ regionSpan left + (z.size + 1) →
      (right ≠ [] → q ≠ regionSpan left + (r.size + 1)) → tags' q = tags q) :
    Chain tags' (left ++ z :: v :: right) := by
  have first := h.span_low
  have bound := h.closed.bounded r (by simp)
  have half := half_lt
  have closed : Closed (left ++ z :: v :: right) := by
    have closed := closed_append.mp h.closed
    refine closed_append.mpr ⟨closed.1, nonneg, by omega, ?_⟩
    cases right with
    | nil => exact last rfl
    | cons s right =>
      have size := size (cons_ne_nil s right)
      have positive := positive (cons_ne_nil s right)
      exact ⟨positive, by omega, closed.2.2.2⟩
  have place : regionSpan (left ++ [r]) = regionSpan left + (r.size + 1) := span_concat
  rw [append_cons] at h
  rw [show left ++ z :: v :: right = left ++ [z, v] ++ right by simp] at closed ⊢
  refine h.replace closed (fun p mem => ?_) (fun x mem => ?_) (fun more => ?_) ⟨here, new, trivial⟩
    (place ▸ next) (fun q mem out => ?_) fun q _ out behind => ?_
  · rcases mem_cons.mp mem with eq | mem
    · omega
    · rw [mem_singleton.mp mem]
      exact low
  · rcases mem_cons.mp mem with eq | mem
    · rw [eq]
      exact kind
    · rw [mem_singleton.mp mem]
      exact kind'
  · have size := size more
    show z.size + 1 + (v.size + 1 + 0) = r.size + 1 + 0
    omega
  · exact absurd (mem_cons.mpr (.inl (mem_singleton.mp mem))) out
  · rw [place] at behind
    simp only [places, mem_cons, not_mem_nil, or_false, not_or] at out
    exact others q out.1 out.2 behind

end Chain

theorem relabel_at (nonneg : ∀ x ∈ left ++ r :: right, 0 ≤ x.size) (size : s.size = r.size) :
    TagAt (left ++ s :: right) p c ↔ p = regionSpan left ∧ c = s ∨
      p ≠ regionSpan left ∧ TagAt (left ++ r :: right) p c := by
  have front : ∀ {x}, At Region.size 0 left p x → p < regionSpan left := fun here => by
    have lt := lt_of_mem_places (fun x mem => nonneg x (by simp [mem])) here.mem_places
    rw [Int.zero_add] at lt
    exact lt
  have behind : ∀ {x}, At Region.size (regionSpan left + (r.size + 1)) right p x →
      regionSpan left < p := fun here => by
    have le := le_of_mem_places (fun x mem => nonneg x (by simp [mem])) here.mem_places
    have first := nonneg r (by simp)
    omega
  simp only [TagAt, at_append, Int.zero_add, At, size]
  constructor
  · rintro (here | here | here)
    · exact .inr ⟨ne_of_lt (front here), .inl here⟩
    · exact .inl here
    · exact .inr ⟨Int.ne_of_gt (behind here), .inr (.inr here)⟩
  · rintro (here | ⟨ne, here | here | here⟩)
    · exact .inr (.inl here)
    · exact .inl here
    · exact absurd here.1 ne
    · exact .inr (.inr here)

/-- A region that may be merged and allocated. -/
def Free (active : Fingerprint → Bool) (r : Region) : Prop :=
  r.status = .vacant ∧ active r.regionXidFp = false

/-- The region that takes the pages of the one behind it. -/
def Region.join (a b : Region) : Region :=
  { a with size := if b.size = pageidMax then pageidMax else a.size + b.size + 1 }

/-- Free regions are merged with free neighbours. -/
inductive Merges (active : Fingerprint → Bool) (l : List Region) : List Region → Prop
  | none : Merges active l l
  | step {left right : List Region} {a b : Region}
      (before : Merges active l (left ++ a :: b :: right))
      (closed : Closed (left ++ a :: b :: right)) (freeA : Free active a) (freeB : Free active b) :
      Merges active l (left ++ a.join b :: right)

theorem Merges.trans (h : Merges active l l') (h' : Merges active l' m) : Merges active l m := by
  induction h' with
  | none => exact h
  | step before closed freeA freeB ih => exact .step ih closed freeA freeB

theorem join_free (freeA : Free active a) : Free active (a.join b) := freeA

section
variable (closed : Closed (left ++ a :: b :: right))
include closed

theorem join_span (more : right ≠ []) : (a.join b).size = a.size + b.size + 1 := by
  rw [append_cons] at closed
  exact if_neg fun last => more (closed.last_iff.mp last)

theorem join_last (last : right = []) : (a.join b).size = pageidMax := by
  rw [append_cons] at closed
  exact if_pos (closed.last_iff.mpr last)

theorem join_at :
    TagAt (left ++ a.join b :: right) p r ↔
      At Region.size 0 left p r ∨ p = regionSpan left ∧ r = a.join b ∨
        At Region.size (regionSpan left + (a.size + 1) + (b.size + 1)) right p r := by
  rw [TagAt, at_append, Int.zero_add]
  refine or_congr Iff.rfl (or_congr Iff.rfl ?_)
  cases right with
  | nil => exact Iff.rfl
  | cons s right =>
    have size := join_span closed (cons_ne_nil s right)
    have place : span Region.size left + ((a.join b).size + 1) =
        regionSpan left + (a.size + 1) + (b.size + 1) := by
      rw [size, regionSpan]
      omega
    rw [place]

end

theorem pair_at : TagAt (left ++ a :: b :: right) p r ↔
    At Region.size 0 left p r ∨ p = regionSpan left ∧ r = a ∨
      p = regionSpan left + (a.size + 1) ∧ r = b ∨
        At Region.size (regionSpan left + (a.size + 1) + (b.size + 1)) right p r := by
  rw [TagAt, at_append, Int.zero_add]
  exact Iff.rfl

theorem Chain.join (h : Chain tags (left ++ a :: b :: right))
    (here : tags' (regionSpan left) = some ((a.join b).tag (sizeInFront left)))
    (gone : ∃ t, tags' (regionSpan left + (a.size + 1)) = some t ∧
      Orphan (regionSpan left + (a.size + 1)) t) (next : ∀ s rest, right = s :: rest →
      tags' (regionSpan left + (a.size + 1) + (b.size + 1)) = some (s.tag (a.join b).size))
    (others : ∀ q, q ≠ regionSpan left → q ≠ regionSpan left + (a.size + 1) →
      (right ≠ [] → q ≠ regionSpan left + (a.size + 1) + (b.size + 1)) → tags' q = tags q) :
    Chain tags' (left ++ a.join b :: right) :=
  h.merge (join_span h.closed) (join_last h.closed) (h.kinds a (by simp)) here gone next others

section
variable (h : Merges active l l')
include h

theorem Merges.kept (here : TagAt l p r) (busy : ¬ Free active r) : TagAt l' p r := by
  induction h with
  | none => exact here
  | step before closed freeA freeB ih =>
    rw [join_at closed]
    rcases pair_at.mp ih with front | first | second | behind
    · exact .inl front
    · exact absurd (first.2 ▸ freeA) busy
    · exact absurd (second.2 ▸ freeB) busy
    · exact .inr (.inr behind)

theorem Merges.places (mem : p ∈ places Region.size 0 l') : p ∈ places Region.size 0 l := by
  induction h with
  | none => exact mem
  | step before closed freeA freeB ih =>
    obtain ⟨c, here⟩ := at_of_mem_places mem
    rcases (join_at closed).mp here with front | joined | behind
    · exact ih (pair_at.mpr (.inl front)).mem_places
    · exact ih (pair_at.mpr (.inr (.inl ⟨joined.1, rfl⟩))).mem_places
    · exact ih (pair_at.mpr (.inr (.inr (.inr behind)))).mem_places

theorem Merges.all {P : Region → Prop} (joins : ∀ a b, Free active a → P a → P (a.join b))
    (all : ∀ r ∈ l, P r) : ∀ r ∈ l', P r := by
  induction h with
  | none => exact all
  | @step left right a b before closed freeA freeB ih =>
    intro r mem
    rcases mem_append.mp mem with front | mem
    · exact ih r (by simp [front])
    · rcases mem_cons.mp mem with rfl | behind
      · exact joins a b freeA (ih a (by simp))
      · exact ih r (by simp [behind])

end

end Stasis.Regions
