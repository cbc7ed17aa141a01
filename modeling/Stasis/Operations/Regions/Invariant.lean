import Stasis.Operations.Regions.Calls

/-!
What holds between the calls.

The page file has a chain of regions, the last of which is free. A transaction that is
active has its fingerprint on every region about which it has an entry to undo, and the
newest entry about a region says what its tag is like. The regions of active transactions
are not free, so no other transaction changes them.
-/
namespace Stasis.Regions
open BoundaryTags TransactionTable Fallible List
open Function (update update_self update_of_ne update_eq_self)

namespace Entry

def arg : Entry → RegionAllocArg
  | allocRegion arg => arg
  | deallocRegion arg => arg

/-- The status of a region after the call that logged the entry. -/
def status : Entry → Status
  | allocRegion _ => .zoned
  | deallocRegion _ => .vacant

def region (e : Entry) (fp : Fingerprint) : Region :=
  ⟨e.arg.pageCount, e.status, fp, e.arg.allocationManager⟩

/-- The region after the entry is undone. -/
def undone (fp : Fingerprint) : Entry → Region
  | allocRegion arg => ⟨arg.pageCount, .vacant, fp, arg.allocationManager⟩
  | deallocRegion arg => ⟨arg.pageCount, .zoned, fp, arg.allocationManager⟩

end Entry

/-- The fingerprint of an active transaction. -/
def World.owner (w : World) (xid : Int) : Fingerprint := ⟨xid, (w.tbl xid).recLSN⟩

/-- The entries about the region on page `p`. -/
def about (u : List Entry) (p : Int) : List Entry := u.filter fun e => e.arg.startPage = p

/-- The entries of a transaction about one page, the newest one first, can be undone: the
region was allocated, or deallocated, or both by the same transaction. -/
inductive Undoable (l : List Region) (fp : Fingerprint) (p : Int) : List Entry → Prop
  | none : Undoable l fp p []
  | once (e : Entry) (here : TagAt l p (e.region fp)) : Undoable l fp p [e]
  | both (a : RegionAllocArg) (here : TagAt l p ((Entry.deallocRegion a).region fp)) :
      Undoable l fp p [.deallocRegion a, .allocRegion a]

structure Inv (w : World) (l : List Region) : Prop where
  chain : Chain w.tags l
  known : ∀ r ∈ l, w.Known r.regionXidFp
  last : ∀ r ∈ l, r.size = pageidMax → Free w.tisActiveTransaction r
  clock : 0 ≤ w.nextLSN
  slots : ∀ x, (w.tbl x).xidWhenFree < 0
  begun : ∀ x, w.tbl.IsActive x → w.Begun x
  idle : ∀ x, ¬ w.tbl.IsActive x → w.undo x = [] ∧ w.aborting x = false
  undoable : ∀ x, w.tbl.IsActive x → ∀ p, Undoable l (w.owner x) p (about (w.undo x) p)

theorem TagAt.mid :
    TagAt (left ++ r :: right) (regionSpan left) r := whole_at.mpr (.inr (.inl ⟨rfl, rfl⟩))

theorem Undoable.mono (h : Undoable l fp p u)
    (kept : ∀ r, r.regionXidFp = fp → TagAt l p r → TagAt l' p r) : Undoable l' fp p u := by
  cases h with
  | none => exact .none
  | once e here => exact .once e (kept _ rfl here)
  | both a here => exact .both a (kept _ rfl here)

theorem Undoable.newest (h : Undoable l fp p (e :: u)) : TagAt l p (e.region fp) := by
  cases h with
  | once _ here => exact here
  | both a here => exact here

theorem Undoable.tail (h : Undoable l fp p (e :: u)) :
    u = [] ∨ ∃ a, e = .deallocRegion a ∧ u = [.allocRegion a] := by
  cases h with
  | once _ here => exact .inl rfl
  | both a here => exact .inr ⟨a, rfl, rfl⟩

theorem about_here (u : List Entry) (here : e.arg.startPage = p) :
    about (e :: u) p = e :: about u p := filter_cons_of_pos (decide_eq_true here)

theorem about_elsewhere (u : List Entry) (ne : e.arg.startPage ≠ p) : about (e :: u) p =
      about u p :=
  filter_cons_of_neg fun same => ne (of_decide_eq_true same)

namespace Inv
variable {w : World}

section
variable (active : w.tbl.IsActive x)
include active

theorem live (h : Inv w l) : w.Live x := ⟨active, h.begun x active, h.clock⟩

theorem scan (h : Inv w l) : Scan w x w l :=
  ⟨.refl (h.live active), h.chain, h.known, h.last⟩

theorem owner_active : w.tisActiveTransaction (w.owner x) = true :=
  decide_eq_true ⟨active, rfl⟩

theorem owned_busy (owned : r.regionXidFp = w.owner x) :
    ¬ Free w.tisActiveTransaction r := by
  intro free
  rw [Free, owned, owner_active active] at free
  cases free.2

theorem stamped (h : Inv w l) (here : TagAt l p r) (owned : r.regionXidFp = w.owner x) :
    (w.tbl x).recLSN ≠ invalidLsn := by
  intro none
  have known := h.known r here.mem
  rw [owned] at known
  have stamp := known.resolve_left (not_lt.mpr active.1)
  have stamp : 0 ≤ (w.tbl x).recLSN := stamp.1
  rw [none] at stamp
  exact absurd stamp (by decide)

end

theorem tag_unique (h : Inv w l) (hr : TagAt l p r) (hs : TagAt l p s) : r = s :=
  At.unique h.chain.nonneg hr hs

end Inv

/-- A call of the transaction logs, and changes only what the transaction itself has to
undo. -/
structure Acted (xid : Int) (w w' : World) : Prop where
  logs : Logs xid w { w' with undo := w.undo, aborting := w.aborting }
  undo : ∀ x, x ≠ xid → w'.undo x = w.undo x
  aborting : ∀ x, x ≠ xid → w'.aborting x = w.aborting x
  valid : 0 ≤ (w'.tbl xid).recLSN

namespace Acted
variable (h : Acted xid w w')
include h

theorem isActive (x : Int) : w'.tbl.IsActive x ↔ w.tbl.IsActive x :=
  h.logs.isActive x

theorem active (known : w.Known fp) :
    w'.tisActiveTransaction fp = w.tisActiveTransaction fp := h.logs.active known

theorem owner_other (ne : x ≠ xid) : w'.owner x = w.owner x :=
  congrArg (fun e : TransactionTableEntry => Fingerprint.mk x e.recLSN) (h.logs.others x ne)

theorem owner_same (stamped : (w.tbl xid).recLSN ≠ invalidLsn) :
    w'.owner xid = w.owner xid := congrArg (Fingerprint.mk xid) (h.logs.kept stamped)

theorem known (known : w.Known fp) : w'.Known fp :=
  known.imp id fun ⟨low, high⟩ => ⟨low, lt_of_lt_of_le high h.logs.later⟩

theorem known_owner : w'.Known (w'.owner xid) := by
  refine .inr ⟨h.valid, ?_⟩
  have valid := h.valid
  rcases h.logs.begun with none | some
  · have none : (w'.tbl xid).recLSN = invalidLsn := none.2
    rw [none] at valid
    exact absurd valid (by decide)
  · exact some.2.2

end Acted

theorem Pushed.acted (h : Pushed xid e w w') : Acted xid w w' := by
  have aborting : w'.aborting = w.aborting := h.logs.aborting
  refine ⟨?_, fun x ne => ?_, fun x _ => congrFun aborting x, h.valid⟩
  · rw [← aborting]
    exact h.logs
  · rw [h.undo, update_of_ne ne]

namespace Inv
variable {w : World}

theorem acted (h : Inv w l) (active : w.tbl.IsActive xid) (act : Acted xid w w')
    (chain : Chain w'.tags l')
    (known : ∀ r ∈ l', w.Known r.regionXidFp ∨ r.regionXidFp = w'.owner xid)
    (last : ∀ r ∈ l', r.size = pageidMax →
      Free w.tisActiveTransaction r ∧ w.Known r.regionXidFp)
    (others : ∀ x, x ≠ xid → w.tbl.IsActive x → ∀ p,
      Undoable l' (w.owner x) p (about (w.undo x) p))
    (own : ∀ p, Undoable l' (w'.owner xid) p (about (w'.undo xid) p)) : Inv w' l' := by
  refine ⟨chain, fun r mem => ?_, fun r mem size => ?_, ?_, fun x => ?_, fun x on => ?_,
    fun x off => ?_, fun x on => ?_⟩
  · rcases known r mem with known | mine
    · exact act.known known
    · rw [mine]
      exact act.known_owner
  · obtain ⟨free, known⟩ := last r mem size
    exact ⟨free.1, (act.active known).trans free.2⟩
  · exact le_trans h.clock act.logs.later
  · by_cases eq : x = xid
    · rw [eq]
      exact lt_of_le_of_lt (Int.le_of_eq act.logs.slot.2) (h.slots xid)
    · have same : w'.tbl x = w.tbl x := act.logs.others x eq
      rw [same]
      exact h.slots x
  · by_cases eq : x = xid
    · rw [eq]
      exact act.logs.begun
    · have same : w'.tbl x = w.tbl x := act.logs.others x eq
      have begun := h.begun x ((act.isActive x).mp on)
      rw [World.Begun, same]
      exact begun.imp id fun some =>
        ⟨some.1, some.2.1, lt_of_lt_of_le some.2.2 act.logs.later⟩
  · have eq : x ≠ xid := fun eq => off ((act.isActive x).mpr (eq ▸ active))
    rw [act.undo x eq, act.aborting x eq]
    exact h.idle x fun on => off ((act.isActive x).mpr on)
  · by_cases eq : x = xid
    · rw [eq]
      exact own
    · rw [act.owner_other eq, act.undo x eq]
      exact others x eq ((act.isActive x).mp on)

theorem own_kept (h : Inv w l) (active : w.tbl.IsActive xid) (act : Acted xid w w')
    (kept : ∀ r, r.regionXidFp = w.owner xid → TagAt l p r → TagAt l' p r) :
    Undoable l' (w'.owner xid) p (about (w.undo xid) p) := by
  have before := h.undoable xid active p
  cases entries : about (w.undo xid) p with
  | nil => exact .none
  | cons e u =>
    rw [entries] at before
    rw [act.owner_same (h.stamped active before.newest rfl)]
    exact before.mono kept

theorem relabel (h : Inv w (left ++ r :: right)) (active : w.tbl.IsActive xid)
    (act : Acted xid w w') (size : s.size = r.size) (owner : s.regionXidFp = w'.owner xid)
    (kind : s.status = .vacant ∨ s.status = .zoned)
    (tags : w'.tags = update w.tags (regionSpan left) (some (s.tag (sizeInFront left))))
    (busy : ¬ Free w.tisActiveTransaction r)
    (mine : ∀ x, x ≠ xid → w.tbl.IsActive x → r.regionXidFp ≠ w.owner x)
    (same : ∀ p, p ≠ regionSpan left → about (w'.undo xid) p = about (w.undo xid) p)
    (own : Undoable (left ++ s :: right) (w'.owner xid) (regionSpan left)
      (about (w'.undo xid) (regionSpan left))) : Inv w' (left ++ s :: right) := by
  have chain := h.chain.relabel size kind
  rw [← tags] at chain
  have places := fun {p c} => relabel_at (p := p) (c := c) h.chain.nonneg size
  have members : ∀ x ∈ left ++ s :: right, x = s ∨ x ∈ left ++ r :: right := by
    intro x mem
    simp only [mem_append, mem_cons] at mem ⊢
    tauto
  refine h.acted active act chain (fun x mem => ?_) (fun x mem eof => ?_) (fun x ne on p => ?_)
    (fun p => ?_)
  · rcases members x mem with eq | old
    · exact .inr (eq ▸ owner)
    · exact .inl (h.known x old)
  · rcases members x mem with eq | old
    · rw [eq, size] at eof
      exact absurd (h.last r (by simp) eof) busy
    · exact ⟨h.last x old eof, h.known x old⟩
  · refine (h.undoable x on p).mono fun c owned here => places.mpr ?_
    by_cases eq : p = regionSpan left
    · rw [eq] at here
      have found : c = r := h.tag_unique here .mid
      exact absurd (found ▸ owned) (mine x ne on)
    · exact .inr ⟨eq, here⟩
  · by_cases eq : p = regionSpan left
    · rw [eq]
      exact own
    · rw [same p eq]
      exact h.own_kept active act fun c _ here => places.mpr (.inr ⟨eq, here⟩)

theorem tag_at (h : Inv w l) (held : w.tags p = some t) (used : t.status ≠ .condemned) :
    ∃ c prev, TagAt l p c ∧ t = c.tag prev := by
  by_cases mem : p ∈ places Region.size 0 l
  · obtain ⟨c, here⟩ := at_of_mem_places mem
    obtain ⟨prev, laid⟩ := h.chain.laid.at here
    exact ⟨c, prev, here, Option.some.inj (held.symm.trans laid)⟩
  · exact absurd (h.chain.orphans p t held mem).1 used

theorem alloc_kept (merges : Merges active l (left ++ r :: right))
    (closed : Closed (left ++ r :: right)) (free : Free active r) (busy : ¬ Free active c)
    (here : TagAt l p c) : TagAt (left ++ z :: (carve r z.size ++ right)) p c := by
  rw [carve_at closed]
  rcases whole_at.mp (merges.kept here busy) with front | taken | behind
  · exact .inl front
  · exact absurd (taken.2 ▸ free) busy
  · exact .inr (.inr (.inr behind))

theorem mem_carve (mem : c ∈ carve r n) : c = rest r n := by
  rw [carve] at mem
  split at mem
  · cases mem
  · exact mem_singleton.mp mem

theorem invalid_free (size : Int) :
    Free w.tisActiveTransaction ⟨size, .vacant, .invalid, 0⟩ ∧ w.Known .invalid := by
  refine ⟨⟨rfl, decide_eq_false fun both => ?_⟩, .inl (by decide)⟩
  exact absurd both.1.1 (by decide : ¬ (0 : Int) ≤ -1)

theorem alloc (h : Inv w l) (active : w.tbl.IsActive xid) (nonneg : 0 ≤ pageCount)
    (fits : ∃ page, w.LastTag page ∧ page + pageCount + 1 < pageidMax / 2)
    (enough : l.length ≤ turns) (allocationManager : Int) :
    ∃ w' left r right,
      w.tregionAlloc turns xid pageCount allocationManager = .ok (w', regionSpan left + 1) ∧
      Merges w.tisActiveTransaction l (left ++ r :: right) ∧ Closed (left ++ r :: right) ∧
      Free w.tisActiveTransaction r ∧ pageCount ≤ r.size ∧
      Pushed xid (.allocRegion ⟨regionSpan left, pageCount, allocationManager⟩) w w' ∧
      Inv w' (left ++ zone w' xid pageCount allocationManager ::
        (carve r pageCount ++ right)) := by
  have live := h.live active
  obtain ⟨page, ⟨t, held, size, used⟩, low⟩ := fits
  obtain ⟨eof, prev, here, rfl⟩ := h.tag_at held used
  obtain ⟨w', left, r, right, ran, merges, closed, free, large, chain, pushed⟩ :=
    tregionAlloc_ok live (h.scan active) enough nonneg here size low allocationManager
  have act := pushed.acted
  have half := half_lt
  have start := le_of_mem_places h.chain.nonneg here.mem_places
  have kept := fun {p c} => alloc_kept (z := zone w' xid pageCount allocationManager) (p := p)
    (c := c) merges closed free
  refine ⟨w', left, r, right, ran, merges, closed, free, large, pushed, ?_⟩
  have known := merges.all (P := fun c => w.Known c.regionXidFp) (fun _ _ _ known => known) h.known
  have last := merges.all (P := fun c => c.size = pageidMax → Free w.tisActiveTransaction c)
    (fun _ _ free _ _ => join_free free) h.last
  have members : ∀ c ∈ left ++ zone w' xid pageCount allocationManager ::
      (carve r pageCount ++ right), c = zone w' xid pageCount allocationManager ∨
        c = rest r pageCount ∨ c ∈ left ++ r :: right := by
    intro c mem
    have carved := mem_carve (r := r) (c := c) (n := pageCount)
    simp only [mem_append, mem_cons] at mem ⊢
    tauto
  have new := invalid_free (w := w) (rest r pageCount).size
  refine h.acted active act chain (fun c mem => ?_) (fun c mem eof => ?_) (fun x ne on p => ?_)
    (fun p => ?_)
  · rcases members c mem with rfl | rfl | old
    · exact .inr rfl
    · exact .inl new.2
    · exact .inl (known c old)
  · rcases members c mem with rfl | rfl | old
    · have eof : pageCount = pageidMax := eof
      omega
    · exact new
    · exact ⟨last c old eof, known c old⟩
  · exact (h.undoable x on p).mono fun c owned here => kept (owned_busy on owned) here
  · have before := h.own_kept (p := p) active act fun c owned here =>
      kept (owned_busy active owned) here
    rw [pushed.undo, update_self]
    by_cases eq : regionSpan left = p
    · -- the region that is taken was free, so there is no entry about it
      have none : about (w.undo xid) p = [] := by
        cases entries : about (w.undo xid) p with
        | nil => rfl
        | cons e u =>
          have there := h.undoable xid active p
          rw [entries] at there
          have busy : ¬ Free w.tisActiveTransaction (e.region (w.owner xid)) :=
            owned_busy active rfl
          have moved := merges.kept there.newest busy
          rw [← eq] at moved
          exact absurd (At.unique closed.nonneg moved TagAt.mid ▸ free) busy
      rw [about_here _ (by exact eq), none]
      refine .once _ ((carve_at (z := zone w' xid pageCount allocationManager) closed).mpr ?_)
      exact .inr (.inl ⟨eq.symm, rfl⟩)
    · rw [about_elsewhere _ (by exact eq)]
      exact before

theorem mem_about (eq : about u p = e :: u') : e.arg.startPage = p := by
  have mem : e ∈ about u p := eq ▸ .head _
  exact of_decide_eq_true (mem_filter.mp mem).2

theorem dealloc (h : Inv w l) (active : w.tbl.IsActive xid)
    (held : w.tags (firstPage - 1) = some t) (zoned : t.status = .zoned)
    (mine : ¬ w.OwnedByOther xid t) :
    ∃ w' left r right prev, w.tregionDealloc xid firstPage = .ok w' ∧ l = left ++ r :: right ∧
      regionSpan left = firstPage - 1 ∧ t = r.tag prev ∧
      Pushed xid (.deallocRegion ⟨firstPage - 1, t.size, t.allocationManager⟩) w w' ∧
      Inv w' (left ++ { r with status := .vacant, regionXidFp := w'.owner xid } :: right) := by
  obtain ⟨r, prev, here, rfl⟩ := h.tag_at held (zoned ▸ by decide)
  obtain ⟨left, right, rfl, place⟩ := At.split here
  have place : regionSpan left = firstPage - 1 := by rw [← place, Int.zero_add]; rfl
  obtain ⟨w', ran, tags, pushed⟩ := tregionDealloc_ok (h.live active) h.chain zoned
  rw [place, Int.sub_add_cancel] at ran
  rw [place] at pushed
  refine ⟨w', left, r, right, prev, ran, rfl, place, rfl, pushed, ?_⟩
  have busy : ¬ Free w.tisActiveTransaction r := fun free => by cases zoned.symm.trans free.1
  refine h.relabel active pushed.acted rfl rfl (.inl rfl) tags busy (fun x ne on owned => ?_)
    (fun q ne => ?_) ?_
  · exact mine ⟨(congrArg w.tisActiveTransaction owned).trans (owner_active on),
      fun eq => ne ((congrArg Fingerprint.xid owned).symm.trans eq)⟩
  · rw [pushed.undo, update_self, about_elsewhere _ (by exact place ▸ ne.symm)]
  · have at_ : TagAt (left ++ { r with status := .vacant, regionXidFp := w'.owner xid } :: right)
      (regionSpan left) { r with status := .vacant, regionXidFp := w'.owner xid } := .mid
    rw [pushed.undo, update_self, about_here _ (by exact place.symm)]
    have before := h.undoable xid active (regionSpan left)
    cases entries : about (w.undo xid) (regionSpan left) with
    | nil => exact .once _ at_
    | cons e u =>
      rw [entries] at before
      have found : e.region (w.owner xid) = r := h.tag_unique before.newest .mid
      cases e with
      | deallocRegion b => cases (congrArg Region.status found).trans zoned
      | allocRegion b =>
        have whole : b = ⟨firstPage - 1, r.size, r.allocationManager⟩ := by
          rw [← found, ← place, ← mem_about entries]
          rfl
        obtain none | ⟨_, eq, _⟩ := before.tail
        · rw [none, whole]
          exact .both _ at_
        · cases eq

theorem undoNext (h : Inv w l) (active : w.tbl.IsActive xid) (entries : w.undo xid = e :: u) :
    ∃ w' left right, w.undoNext xid = .ok w' ∧
      l = left ++ e.region (w.owner xid) :: right ∧ regionSpan left = e.arg.startPage ∧
      w'.tags = update w.tags e.arg.startPage
        (some ((e.undone (w'.owner xid)).tag (sizeInFront left))) ∧
      w'.undo xid = u ∧ Inv w' (left ++ e.undone (w'.owner xid) :: right) := by
  have before := h.undoable xid active e.arg.startPage
  rw [entries, about_here _ rfl] at before
  obtain ⟨left, right, rfl, place⟩ := At.split before.newest
  have place : regionSpan left = e.arg.startPage := by rw [← place, Int.zero_add]; rfl
  have live := h.live active
  have ran : ∃ after, w.undoEntry xid e = .ok after ∧ Logs xid w after ∧
      0 ≤ (after.tbl xid).recLSN ∧ after.tags = update w.tags (regionSpan left)
        (some ((e.undone (after.owner xid)).tag (sizeInFront left))) := by
    cases e with
    | allocRegion a =>
      obtain ⟨after, ran, logs, valid, tags⟩ :=
        operateDeallocRegionUnlocked_ok live h.chain a place.symm
      exact ⟨after, ran, logs, valid, tags⟩
    | deallocRegion a =>
      obtain ⟨after, ran, logs, valid, tags⟩ :=
        tregionAllocHelper_whole live h.chain a.allocationManager
      rw [place] at ran
      exact ⟨after, ran, logs, valid, tags⟩
  obtain ⟨after, ran, logs, valid, tags⟩ := ran
  have next : w.undoNext xid = .ok { after with
      undo := update after.undo xid u
      aborting := update after.aborting xid true } := by
    rw [World.undoNext, entries]
    exact bind_ok ran rfl
  have act : Acted xid w { after with
      undo := update after.undo xid u
      aborting := update after.aborting xid true } := by
    refine ⟨?_, fun x ne => ?_, fun x ne => ?_, valid⟩
    · show Logs xid w { after with undo := w.undo, aborting := w.aborting }
      rw [← logs.undo, ← logs.aborting]
      exact logs
    · exact (update_of_ne ne ..).trans (congrFun logs.undo x)
    · exact (update_of_ne ne ..).trans (congrFun logs.aborting x)
  refine ⟨_, left, right, next, rfl, place, place ▸ tags, update_self .., ?_⟩
  refine h.relabel active act (by cases e <;> rfl) (by cases e <;> rfl)
    (by cases e; exacts [.inl rfl, .inr rfl]) tags (owned_busy active rfl) (fun x ne on owned => ?_)
    (fun q ne => ?_) ?_
  · exact ne (congrArg Fingerprint.xid owned).symm
  · show about (update after.undo xid u xid) q = _
    rw [update_self, entries, about_elsewhere _ (place ▸ ne.symm)]
  · show Undoable _ _ _ (about (update after.undo xid u xid) _)
    rw [update_self, place]
    obtain none | ⟨a, rfl, one⟩ := before.tail
    · rw [none]
      exact .none
    · rw [one]
      exact .once _ (place ▸ TagAt.mid)

theorem retable (h : Inv w l) {e : TransactionTableEntry} (whenFree : e.xidWhenFree < 0)
    (fresh : 0 ≤ x → e.xid = x → e.prevLSN = invalidLsn ∧ e.recLSN = invalidLsn) :
    Inv { w with
      tbl := w.tbl.set x e
      undo := update w.undo x []
      aborting := update w.aborting x false } l := by
  generalize eq : ({ w with
    tbl := w.tbl.set x e
    undo := update w.undo x []
    aborting := update w.aborting x false } : World) = w'
  have same : w'.tags = w.tags ∧ w'.nextLSN = w.nextLSN := eq ▸ ⟨rfl, rfl⟩
  have self : w'.tbl x = e ∧ w'.undo x = [] ∧ w'.aborting x = false :=
    eq ▸ ⟨set_self .., update_self .., update_self ..⟩
  have other : ∀ {y}, y ≠ x →
      w'.tbl y = w.tbl y ∧ w'.undo y = w.undo y ∧ w'.aborting y = w.aborting y := fun ne =>
    eq ▸ ⟨set_of_ne _ _ ne, update_of_ne ne .., update_of_ne ne ..⟩
  have on_other : ∀ {y}, y ≠ x → (w'.tbl.IsActive y ↔ w.tbl.IsActive y) := fun ne => by
    rw [IsActive, IsActive, (other ne).1]
  refine ⟨same.1 ▸ h.chain, fun r mem => ?_, fun r mem size => ?_, same.2 ▸ h.clock,
    fun y => ?_, fun y on => ?_, fun y off => ?_, fun y on p => ?_⟩
  · have known := h.known r mem
    rw [World.Known, same.2]
    exact known
  · have free := h.last r mem size
    refine ⟨free.1, decide_eq_false fun acting => ?_⟩
    obtain ⟨on, stamp⟩ := acting
    by_cases eq : r.regionXidFp.xid = x
    · have known := (h.known r mem).resolve_left (not_lt.mpr on.1)
      rw [IsActive, eq, self.1] at on
      rw [← stamp, eq, self.1, (fresh on.1 on.2).2] at known
      exact absurd known.1 (by decide)
    · rw [(other eq).1] at stamp
      exact of_decide_eq_false free.2 ⟨(on_other eq).mp on, stamp⟩
  · by_cases eq : y = x
    · rw [eq, self.1]
      exact whenFree
    · rw [(other eq).1]
      exact h.slots y
  · by_cases eq : y = x
    · rw [IsActive, eq, self.1] at on
      rw [World.Begun, eq, self.1]
      exact .inl (fresh on.1 on.2)
    · have begun := h.begun y ((on_other eq).mp on)
      rw [World.Begun, (other eq).1, same.2]
      exact begun
  · by_cases eq : y = x
    · exact eq ▸ self.2
    · rw [(other eq).2.1, (other eq).2.2]
      exact h.idle y fun on => off ((on_other eq).mpr on)
  · by_cases eq : y = x
    · rw [eq, self.2.1]
      exact .none
    · rw [(other eq).2.1, World.owner, (other eq).1]
      exact h.undoable y ((on_other eq).mp on) p

theorem tbegin (h : Inv w l) (off : ¬ w.tbl.IsActive x) : Inv (w.tbegin x) l := by
  have idle := h.idle x off
  have after := h.retable (x := x) (e := ⟨x, invalidLsn, invalidLsn, reservedXtableXid⟩)
    (show reservedXtableXid < 0 by decide) fun _ _ => ⟨rfl, rfl⟩
  rw [← idle.1, ← idle.2, update_eq_self, update_eq_self] at after
  exact after

theorem ended (h : Inv w l) (x : Int) : Inv (w.ended x) l := by
  refine h.retable (h.slots x) fun low eq => ?_
  have gone : (w.tbl x).xidWhenFree = x := eq
  have negative := h.slots x
  omega

theorem regionsInit : Inv .regionsInit [⟨pageidMax, .vacant, .invalid, 0⟩] := by
  have free := invalid_free (w := .regionsInit) pageidMax
  refine ⟨⟨⟨rfl, trivial⟩, rfl, fun p mem => ?_, fun r mem => ?_,
    fun p t held out => ?_⟩, fun r mem => ?_, fun r mem _ => ?_, by decide,
    fun x => (by decide : invalidXtableXid < 0),
    fun x on => ?_, fun x _ => ⟨rfl, rfl⟩, fun x _ _ => .none⟩
  · rw [mem_singleton.mp mem]
    decide
  · rw [mem_singleton.mp mem]
    exact .inl rfl
  · have ne : p ≠ 0 := fun eq => out (eq ▸ .head _)
    simp only [World.regionsInit, update_of_ne ne, reduceCtorEq] at held
  · rw [mem_singleton.mp mem]
    exact free.2
  · rw [mem_singleton.mp mem]
    exact free.1
  · exact .inl ⟨rfl, rfl⟩

end Inv

end Stasis.Regions
