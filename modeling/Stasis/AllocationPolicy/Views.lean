import Stasis.AllocationPolicy.Contents
import Stasis.Library.Fallible

/-!
The views of an allocation policy follow its tables.

After every call the views show each page as the rows of the tables say: a page that no
transaction uses is available, a page that one transaction uses belongs to it, and room
is the room of the table of all pages. A call that changes the rows of one page leaves
the views of every other page alone.
-/
namespace Stasis.AllocationPolicy
open OrderedTable Function List Tree
open Option hiding mem_map

def Contents.Row (c : Contents) (use : Use) (x p : Int) : Prop :=
  ⟨x, p⟩ ∈ (c.tables use).primary

/-- The transaction that a page belongs to. -/
def Contents.Owns (c : Contents) (x p : Int) : Prop :=
  ((∀ y, c.Row .alloced y p ↔ y = x) ∧ ∀ y, ¬c.Row .dealloced y p) ∨
    (c.reuse = true ∧ (∀ y, c.Row .alloced y p ↔ y = x) ∧ ∀ y, c.Row .dealloced y p ↔ y = x) ∨
    ((∀ y, ¬c.Row .alloced y p) ∧ ∀ y, c.Row .dealloced y p ↔ y = x)

variable {p x : Int} {c : Contents} {ap : Policy} {fs : Nat} {t : XidTable}

theorem Contents.Owns.row (h : c.Owns x p) : ∃ use, c.Row use x p := by
  cases h with
  | inl h => exact ⟨.alloced, (h.1 x).mpr rfl⟩
  | inr h =>
    cases h with
    | inl h => exact ⟨.alloced, (h.2.1 x).mpr rfl⟩
    | inr h => exact ⟨.dealloced, (h.2 x).mpr rfl⟩

structure Contents.ShowsAt (c : Contents) (p : Int) : Prop where
  available : ∀ fs, c.available p = some fs ↔ c.space p = some fs ∧ ∀ use x, ¬c.Row use x p
  owner : ∀ x fs, c.owner p = some (x, fs) ↔ c.space p = some fs ∧ c.Owns x p

structure Contents.Valid (c : Contents) : Prop where
  registered : ∀ use x p, c.Row use x p → (c.space p).isSome
  shows : ∀ p, c.ShowsAt p

section
variable {key : XidPageid → Int ×ₗ Int} {f g : XidPageid → Int} {t : Tree key}
  (lex : ∀ r, key r = toLex (f r, g r)) (nonneg : ∀ r ∈ t, 0 ≤ g r)
include lex nonneg

theorem range_first (a : Int) : t.range (toLex (a, 0)) (fun r => decide (f r = a)) =
    t.rows.filter fun r => decide (f r = a) := by
  refine range_eq_filter (fun r mem eq => ?_) fun r s low lt eq => ?_
  · rw [lex]
    exact Prod.Lex.toLex_le_toLex.mpr (.inr ⟨(of_decide_eq_true eq).symm, nonneg r mem⟩)
  · rw [lex] at low
    rw [lex, lex] at lt
    have first := (Prod.Lex.toLex_le_toLex'.mp low).1
    have second := (Prod.Lex.toLex_lt_toLex'.mp lt).1
    simp only [decide_eq_true_eq] at eq ⊢
    omega

theorem mem_range_first (inj : ∀ r, f r = f s → g r = g s → r = s) :
    g s ∈ (t.range (toLex (f s, 0)) fun r => decide (f r = f s)).map g ↔ s ∈ t := by
  rw [range_first lex nonneg, mem_map]
  constructor
  · intro ⟨r, mem, eq⟩
    have row := mem_filter.mp mem
    exact inj r (of_decide_eq_true row.2) eq ▸ row.1
  · exact fun mem => ⟨s, mem_filter.mpr ⟨mem, decide_eq_true rfl⟩, rfl⟩

end

theorem mem_lookupByPageid (nonneg : t.Nonneg) :
    x ∈ xidAllocedDeallocedHelperLookupByPageid t.primary p ↔ ⟨x, p⟩ ∈ t.primary :=
  mem_range_first (f := (·.pageid)) (g := (·.xid)) (s := ⟨x, p⟩) (fun _ => rfl)
    (fun r mem => (nonneg r mem).1) fun _ page xid => XidPageid.mk.injEq .. ▸ ⟨xid, page⟩

theorem nodup_lookupByPageid (nonneg : t.Nonneg) (p : Int) :
    (xidAllocedDeallocedHelperLookupByPageid t.primary p).Nodup := by
  have all := range_first (f := (·.pageid)) (g := (·.xid)) (t := t.primary) (fun _ => rfl)
    (fun r mem => (nonneg r mem).1) p
  rw [xidAllocedDeallocedHelperLookupByPageid, all]
  refine pairwise_map.mpr ((t.primary.sorted.filter _).imp_of_mem ?_)
  intro r s hr hs lt eq
  have pr := of_decide_eq_true (mem_filter.mp hr).2
  have ps := of_decide_eq_true (mem_filter.mp hs).2
  have same : r.keyPageidXid = s.keyPageidXid := by
    rw [XidPageid.keyPageidXid, XidPageid.keyPageidXid, pr, ps, eq]
  exact absurd same (ne_of_lt lt)

theorem mem_lookupByXid (agree : t.Agree) (nonneg : t.Nonneg) :
    p ∈ xidAllocedDeallocedHelperLookupByXid t.secondary x ↔ ⟨x, p⟩ ∈ t.primary := by
  refine .trans ?_ (agree ⟨x, p⟩).symm
  exact mem_range_first (f := (·.xid)) (g := (·.pageid)) (s := ⟨x, p⟩) (fun _ => rfl)
    (fun r mem => (nonneg r ((agree r).mpr mem)).2) fun _ xid page => XidPageid.mk.injEq .. ▸ ⟨xid, page⟩

theorem eq_singleton_iff (nodup : l.Nodup) : l = [x] ↔ ∀ y, y ∈ l ↔ y = x := by
  rw [← perm_singleton, perm_ext_iff_of_nodup nodup (nodup_singleton x)]
  simp only [mem_singleton]

theorem ownerOf_eq_some_iff (reuse : Bool) (as ds : List Int) (x : Int) :
    ownerOf reuse as ds = some x ↔
      (as = [x] ∧ ds = []) ∨ (reuse = true ∧ as = [x] ∧ ds = [x]) ∨ (as = [] ∧ ds = [x]) := by
  match as, ds with
  | [], [] | [_], [] | [], [_] | [], _ :: _ :: _ | [_], _ :: _ :: _ | _ :: _ :: _, _ =>
    simp [ownerOf]
  | [a], [d] =>
    by_cases same : reuse = true ∧ a = d
    · simp [ownerOf, same]
    · simp only [ownerOf, if_neg same]
      simp
      grind

variable {use : Use} {q : Int}

theorem xids_eq_nil_iff (nonneg : (c.tables use).Nonneg) :
    c.xids use p = [] ↔ ∀ x, ¬c.Row use x p := by
  rw [eq_nil_iff_forall_not_mem]
  exact forall_congr' fun x => not_congr (mem_lookupByPageid nonneg)

theorem xids_eq_singleton_iff (nonneg : (c.tables use).Nonneg) :
    c.xids use p = [x] ↔ ∀ y, c.Row use y p ↔ y = x := by
  refine (eq_singleton_iff (nodup_lookupByPageid nonneg p)).trans ?_
  exact forall_congr' fun y => iff_congr (mem_lookupByPageid nonneg) Iff.rfl

theorem ownerOf_xids (nonneg : ∀ use, (c.tables use).Nonneg) :
    ownerOf c.reuse (c.xids .alloced p) (c.xids .dealloced p) = some x ↔ c.Owns x p := by
  rw [ownerOf_eq_some_iff, xids_eq_singleton_iff (nonneg _), xids_eq_singleton_iff (nonneg _),
    xids_eq_nil_iff (nonneg _), xids_eq_nil_iff (nonneg _)]
  exact Iff.rfl

theorem Contents.ShowsAt.congr {c' : Contents} (h : c.ShowsAt p) (space : c'.space p = c.space p)
    (available : c'.available p = c.available p) (owner : c'.owner p = c.owner p)
    (rows : ∀ use x, c'.Row use x p ↔ c.Row use x p) (reuse : c'.reuse = c.reuse) :
    c'.ShowsAt p := by
  constructor
  · intro fs
    rw [space, available, h.available]
    simp only [rows]
  · intro x fs
    rw [space, owner, h.owner]
    simp only [Contents.Owns, rows, reuse]

theorem refresh_shows (nonneg : ∀ use, (c.tables use).Nonneg) (p : Int) :
    (c.refresh p).ShowsAt p := by
  have space : (c.refresh p).space p = some ((c.space p).getD 0) := update_self ..
  have available : (c.refresh p).available p =
      if c.xids .alloced p = [] ∧ c.xids .dealloced p = [] then some ((c.space p).getD 0)
      else none := update_self ..
  have owner : (c.refresh p).owner p =
      (ownerOf c.reuse (c.xids .alloced p) (c.xids .dealloced p)).map
        fun x => (x, (c.space p).getD 0) := update_self ..
  constructor
  · intro fs
    have unused : (∀ use x, ¬(c.refresh p).Row use x p) ↔
        c.xids .alloced p = [] ∧ c.xids .dealloced p = [] := by
      rw [xids_eq_nil_iff (nonneg _), xids_eq_nil_iff (nonneg _)]
      exact ⟨fun h => ⟨h .alloced, h .dealloced⟩, fun h use => Use.casesOn use h.1 h.2⟩
    rw [space, available, unused]
    split
    case isTrue yes => exact (and_iff_left yes).symm
    case isFalse no => exact ⟨fun h => absurd h (by simp), fun h => absurd h.2 no⟩
  · intro x fs
    rw [space, owner, map_eq_some_iff]
    constructor
    · intro ⟨y, own, eq⟩
      rw [← (Prod.mk.inj eq).1, ← (Prod.mk.inj eq).2]
      exact ⟨rfl, (ownerOf_xids nonneg).mp own⟩
    · intro ⟨fs_eq, own⟩
      exact ⟨x, (ownerOf_xids nonneg).mpr own, Prod.ext rfl (some.inj fs_eq)⟩

theorem refresh_valid (nonneg : ∀ use, (c.tables use).Nonneg)
    (registered : ∀ use x q, q ≠ p → c.Row use x q → (c.space q).isSome)
    (others : ∀ q, q ≠ p → c.ShowsAt q) : (c.refresh p).Valid := by
  constructor
  · intro use x q row
    by_cases same : q = p
    · rw [same]
      exact isSome_iff_exists.mpr ⟨_, update_self ..⟩
    · exact (congrArg Option.isSome (update_of_ne same _ _)).trans (registered use x q same row)
  · intro q
    by_cases same : q = p
    · exact same ▸ refresh_shows nonneg p
    · exact (others q same).congr (update_of_ne same _ _) (update_of_ne same _ _)
        (update_of_ne same _ _) (fun _ _ => Iff.rfl) rfl

/-- A policy that shows its tables, together with the two orders that agree. -/
structure Policy.Sound (ap : Policy) : Prop where
  wellFormed : ap.WellFormed
  valid : ap.contents.Valid

theorem Contents.Valid.unseen (valid : c.Valid) (h : c.space p = none) : c.available p = none := by
  refine eq_none_iff_forall_ne_some.mpr fun fs eq => ?_
  exact absurd (((valid.shows p).available fs).mp eq).1 (by rw [h]; exact (some_ne_none fs).symm)

theorem Contents.Valid.one (valid : c.Valid) (p : Int) :
    c.available p = none ∨ c.owner p = none := by
  refine or_iff_not_imp_left.mpr fun avail => eq_none_iff_forall_ne_some.mpr ?_
  intro o own
  obtain ⟨fs, avail⟩ := ne_none_iff_exists'.mp avail
  have unused := (((valid.shows p).available fs).mp avail).2
  obtain ⟨use, row⟩ := (((valid.shows p).owner o.1 o.2).mp own).2.row
  exact unused use o.1 row

theorem setTable_contents (ap : Policy) (t : XidTable) (use : Use) :
    (ap.setTable t use).contents =
      { ap.contents with tables := update ap.contents.tables use t } := by
  have tables : (ap.setTable t use).table = update ap.table use t := by
    funext use'
    cases use <;> cases use' <;> rfl
  cases use <;> exact Contents.ext rfl rfl rfl tables rfl

theorem setTable_wellFormed (wf : ap.WellFormed) (use : Use) (agree : t.Agree) (nonneg : t.Nonneg) :
    (ap.setTable t use).WellFormed := by
  cases use with
  | alloced =>
    exact ⟨wf.available, wf.owners, fun use => Use.casesOn use agree (wf.tables .dealloced),
      fun use => Use.casesOn use nonneg (wf.nonneg .dealloced)⟩
  | dealloced =>
    exact ⟨wf.available, wf.owners, fun use => Use.casesOn use (wf.tables .alloced) agree,
      fun use => Use.casesOn use (wf.nonneg .alloced) nonneg⟩

theorem find_row (h : t.primary.find (toLex (p, x)) = o) :
    ⟨x, p⟩ ∈ t.primary ↔ o = some ⟨x, p⟩ := by
  rw [← h, find_eq_some_iff]
  exact (and_iff_left rfl).symm

theorem rows_of_find {t' : XidTable} {held : Prop}
    (find : ∀ k, t'.primary.find k = if k = XidPageid.keyPageidXid ⟨x,
      p⟩ then o else t.primary.find k)
    (here : o = some ⟨x, p⟩ ↔ held) (y q : Int) :
    ⟨y, q⟩ ∈ t'.primary ↔ if y = x ∧ q = p then held else ⟨y, q⟩ ∈ t.primary := by
  rw [find_row (find (toLex (q, y)))]
  by_cases same : y = x ∧ q = p
  · rw [if_pos same, same.1, same.2]
    exact (iff_of_eq (congrArg (· = some _) (if_pos rfl))).trans here
  · have other : toLex (q, y) ≠ XidPageid.keyPageidXid ⟨x, p⟩ := fun eq =>
      same (Prod.mk.inj (toLex_inj.mp eq)).symm
    rw [if_neg same, if_neg other]
    exact (find_row rfl).symm

/-- What the rows of `c'` are: those of `c`, but for one. -/
def Contents.Changed (c c' : Contents) (use : Use) (x p : Int) (held : Prop) : Prop :=
  ∀ use' y q, c'.Row use' y q ↔
    if use' = use ∧ y = x ∧ q = p then held else c.Row use' y q

section
variable {held : Prop} (rows : ∀ y q, ⟨y, q⟩ ∈ t.primary ↔
  if y = x ∧ q = p then held else ⟨y, q⟩ ∈ (ap.table use).primary)
include rows

theorem setTable_changed : ap.contents.Changed (ap.setTable t use).contents use x p held := by
  intro use' y q
  rw [setTable_contents, Contents.Row]
  by_cases same : use' = use
  · rw [same]
    simp only [update_self, true_and]
    exact rows y q
  · rw [if_neg fun h => same h.1]
    simp only [update_of_ne same]
    exact Iff.rfl

variable (sound : ap.Sound)
include sound

theorem nonneg_of_rows (new : held → 0 ≤ x ∧ 0 ≤ p) : XidTable.Nonneg t := by
  intro r mem
  have row := (rows r.xid r.pageid).mp mem
  split at row
  · next eq => exact eq.1 ▸ eq.2 ▸ new row
  · exact sound.wellFormed.nonneg use r row

variable (agree : t.Agree) (nonneg : t.Nonneg)
include agree nonneg

theorem updateViews_sound :
    ∃ ap', updateViewsForPage (ap.setTable t use) p = some ap' ∧ ap'.Sound ∧
      ap'.contents.reuse = ap.contents.reuse ∧ ap.contents.Changed ap'.contents use x p held ∧
      ∀ q, q ≠ p → ap'.contents.space q = ap.contents.space q := by
  have wf := setTable_wellFormed sound.wellFormed use agree nonneg
  have c1 := setTable_contents ap t use
  have changed := setTable_changed rows
  have others : ∀ use' y q, q ≠ p →
      ((ap.setTable t use).contents.Row use' y q ↔ ap.contents.Row use' y q) := by
    intro use' y q ne
    rw [changed use' y q, if_neg fun h => ne h.2.2]
  obtain ⟨ap', run, wf', c'⟩ := updateViewsForPage_spec wf p (by
    rw [c1]; exact fun h => sound.valid.unseen h)
  have space : ∀ q, q ≠ p → ap'.contents.space q = ap.contents.space q := by
    intro q ne
    rw [c', c1]
    exact update_of_ne ne ..
  refine ⟨ap', run, ⟨wf', ?_⟩, by rw [c', c1]; rfl, by rw [c']; exact changed, space⟩
  rw [c']
  refine refresh_valid wf.nonneg ?_ ?_
  · intro use' y q ne row
    have space := sound.valid.registered use' y q ((others use' y q ne).mp row)
    rw [c1]
    exact space
  · intro q ne
    refine (sound.valid.shows q).congr ?_ ?_ ?_ (fun use' y => others use' y q ne) ?_
    all_goals rw [c1]

theorem setTable_sound (same : held ↔ ap.contents.Row use x p) : (ap.setTable t use).Sound := by
  have c1 := setTable_contents ap t use
  have same : ∀ use' y q,
      (ap.setTable t use).contents.Row use' y q ↔ ap.contents.Row use' y q := by
    intro use' y q
    rw [setTable_changed rows use' y q]
    split
    · next eq =>
      rw [eq.1, eq.2.1, eq.2.2]
      exact same
    · exact Iff.rfl
  refine ⟨setTable_wellFormed sound.wellFormed use agree nonneg, ?_, ?_⟩
  · intro use' y q row
    have space := sound.valid.registered use' y q ((same use' y q).mp row)
    rw [c1]
    exact space
  · intro q
    refine (sound.valid.shows q).congr ?_ ?_ ?_ (fun use' y => same use' y q) ?_
    all_goals rw [c1]

end

section
variable (sound : ap.Sound)
include sound

theorem helperRemove_sound (use : Use) (x p : Int) :
    ∃ existed ap', xidAllocedDeallocedHelperRemove ap use x p = some (existed, ap') ∧ ap'.Sound ∧
      ap'.contents.reuse = ap.contents.reuse ∧
      ap.contents.Changed ap'.contents use x p False ∧
      ∀ q, q ≠ p → ap'.contents.space q = ap.contents.space q := by
  obtain ⟨t, run, agree, find⟩ := voidDoubleRemove_spec (sound.wellFormed.tables use) ⟨x, p⟩
  have rows := rows_of_find find (iff_of_false (some_ne_none _).symm not_false)
  have nonneg := nonneg_of_rows rows sound False.elim
  rw [xidAllocedDeallocedHelperRemove, run]
  cases existed : ((ap.table use).primary.find (XidPageid.keyPageidXid ⟨x, p⟩)).isSome with
  | true =>
    obtain ⟨ap', views, sound', kept⟩ := updateViews_sound rows sound agree nonneg
    refine ⟨true, ap', ?_, sound', kept⟩
    simp only [bind_eq_bind, bind_some, if_true, views]
  | false =>
    have absent : ⟨x, p⟩ ∉ (ap.table use).primary := fun mem => by
      rw [isSome_eq_false_iff, isNone_iff_eq_none] at existed
      exact find_eq_none_iff.mp existed _ mem rfl
    refine ⟨false, ap.setTable t use, ?_,
      setTable_sound rows sound agree nonneg (iff_of_false not_false absent),
      by rw [setTable_contents], setTable_changed rows, fun q _ => by rw [setTable_contents]⟩
    simp only [bind_eq_bind, bind_some, Bool.false_eq_true, if_false]

theorem helperAdd_sound (use : Use) {x p : Int} (hx : 0 ≤ x) (hp : 0 ≤ p) :
    ∃ existed ap', xidAllocedDeallocedHelperAdd ap use x p = some (existed, ap') ∧ ap'.Sound ∧
      ap'.contents.reuse = ap.contents.reuse ∧
      ap.contents.Changed ap'.contents use x p True ∧
      ∀ q, q ≠ p → ap'.contents.space q = ap.contents.space q := by
  obtain ⟨existed, ap1, removed, sound1, reuse1, changed1, space1⟩ := helperRemove_sound sound use x p
  have absent : (ap1.table use).primary.find (XidPageid.keyPageidXid ⟨x, p⟩) = none := by
    refine eq_none_iff_forall_ne_some.mpr fun r eq => ?_
    have row := find_eq_some_iff.mp eq
    have eq : r = ⟨x, p⟩ := by
      have key := Prod.mk.inj (toLex_inj.mp row.2)
      cases r
      rw [XidPageid.mk.injEq]
      exact ⟨key.2, key.1⟩
    rw [eq] at row
    have held := (changed1 use x p).mp row.1
    rwa [if_pos ⟨rfl, rfl, rfl⟩] at held
  obtain ⟨t, added, agree, find⟩ := voidDoubleAdd_spec (sound1.wellFormed.tables use)
    (fun r s eq => congrArg toLex (Prod.ext (Prod.mk.inj (toLex_inj.mp eq)).2
      (Prod.mk.inj (toLex_inj.mp eq)).1)) ⟨x, p⟩ absent
  have rows := rows_of_find find (iff_of_true rfl trivial)
  have nonneg := nonneg_of_rows rows sound1 fun _ => ⟨hx, hp⟩
  obtain ⟨ap', views, sound', reuse, changed, space⟩ := updateViews_sound rows sound1 agree nonneg
  refine ⟨existed, ap', ?_, sound', reuse.trans reuse1, ?_, fun q ne =>
    (space q ne).trans (space1 q ne)⟩
  · simp only [xidAllocedDeallocedHelperAdd, removed, bind_eq_bind, bind_some, added,
      views]
  · intro use' y q
    rw [changed use' y q]
    split
    · exact Iff.rfl
    · next ne => rw [changed1 use' y q, if_neg ne]

theorem removeAll_sound (use : Use) (x : Int) (ps : List Int) :
    ∃ ap', ps.foldlM (fun ap p => (xidAllocedDeallocedHelperRemove ap use x p).map (·.2)) ap =
        some ap' ∧ ap'.Sound ∧ ap'.contents.reuse = ap.contents.reuse ∧
      (∀ use' y q, ap'.contents.Row use' y q ↔
        ap.contents.Row use' y q ∧ ¬(use' = use ∧ y = x ∧ q ∈ ps)) ∧
      ∀ q, q ∉ ps → ap'.contents.space q = ap.contents.space q := by
  induction ps generalizing ap with
  | nil => exact ⟨ap, rfl, sound, rfl, fun use' y q => by simp, fun _ _ => rfl⟩
  | cons p ps ih =>
    obtain ⟨_, ap1, removed, sound1, reuse1, changed, space1⟩ := helperRemove_sound sound use x p
    obtain ⟨ap', run, sound', reuse, rows, space⟩ := ih sound1
    have kept : ∀ q, q ∉ p :: ps → ap'.contents.space q = ap.contents.space q := by
      intro q out
      rw [mem_cons, not_or] at out
      exact (space q out.2).trans (space1 q out.1)
    refine ⟨ap', ?_, sound', reuse.trans reuse1, ?_, kept⟩
    · rw [foldlM_cons, removed]
      exact run
    · intro use' y q
      rw [rows, changed use' y q, mem_cons]
      split
      · next eq => exact iff_of_false (fun h => h.1) fun h => h.2 ⟨eq.1, eq.2.1, .inl eq.2.2⟩
      · next ne =>
        refine and_congr_right fun _ => not_congr ⟨fun h => ⟨h.1, h.2.1, .inr h.2.2⟩, ?_⟩
        intro ⟨hu, hy, hq⟩
        exact ⟨hu, hy, hq.resolve_left fun eq => ne ⟨hu, hy, eq⟩⟩

theorem transactionCompleted_sound (x : Int) :
    ∃ ap', transactionCompleted ap x = some ap' ∧ ap'.Sound ∧
      ap'.contents.reuse = ap.contents.reuse ∧
      (∀ use y p, ap'.contents.Row use y p ↔ ap.contents.Row use y p ∧ y ≠ x) ∧
      ∀ q, q < 0 → ap'.contents.space q = ap.contents.space q := by
  obtain ⟨ap1, run1, sound1, reuse1, rows1, space1⟩ :=
    removeAll_sound sound .alloced x (xidAllocedLookupByXid ap x)
  obtain ⟨ap2, run2, sound2, reuse2, rows2, space2⟩ :=
    removeAll_sound sound1 .dealloced x (xidDeallocedLookupByXid ap x)
  have wf := sound.wellFormed
  have alloced : ∀ {p}, p ∈ xidAllocedLookupByXid ap x ↔ ap.contents.Row .alloced x p :=
    mem_lookupByXid (wf.tables .alloced) (wf.nonneg .alloced)
  have dealloced : ∀ {p}, p ∈ xidDeallocedLookupByXid ap x ↔ ap.contents.Row .dealloced x p :=
    mem_lookupByXid (wf.tables .dealloced) (wf.nonneg .dealloced)
  have space : ∀ q, q < 0 → ap2.contents.space q = ap.contents.space q := by
    intro q neg
    have outside : ∀ use, ¬ ap.contents.Row use x q := fun use row =>
      absurd (wf.nonneg use _ row).2 (not_le.mpr neg)
    rw [space2 q fun mem => outside _ (dealloced.mp mem),
      space1 q fun mem => outside _ (alloced.mp mem)]
  refine ⟨ap2, ?_, sound2, reuse2.trans reuse1, ?_, space⟩
  · rw [transactionCompleted]
    exact (congrArg (Option.bind · _) run1).trans run2
  · intro use y p
    rw [rows2, rows1, alloced, dealloced]
    constructor
    · intro ⟨⟨row, noAlloc⟩, noDealloc⟩
      refine ⟨row, fun eq => ?_⟩
      subst eq
      cases use with
      | alloced => exact noAlloc ⟨rfl, rfl, row⟩
      | dealloced => exact noDealloc ⟨rfl, rfl, row⟩
    · intro ⟨row, ne⟩
      exact ⟨⟨row, fun h => ne h.2.1⟩, fun h => ne h.2.1⟩

end

theorem updateFreespace_valid (valid : c.Valid) (seen : (c.space p).isSome) :
    (c.updateFreespace p fs).Valid := by
  obtain ⟨old, seen⟩ := isSome_iff_exists.mp seen
  have space : (c.updateFreespace p fs).space p = some fs := update_self ..
  have available : (c.updateFreespace p fs).available p = (c.available p).map fun _ => fs :=
    update_self ..
  have owner : (c.updateFreespace p fs).owner p = (c.owner p).map fun o => (o.1, fs) :=
    update_self ..
  constructor
  · intro use x q row
    by_cases same : q = p
    · rw [same, space, isSome_some]
    · exact (congrArg Option.isSome (update_of_ne same _ _)).trans (valid.registered use x q row)
  · intro q
    by_cases same : q = p
    · subst same
      constructor
      · intro fs'
        rw [space, available, map_eq_some_iff]
        constructor
        · intro ⟨held, avail, eq⟩
          exact ⟨congrArg some eq, (((valid.shows q).available held).mp avail).2⟩
        · intro ⟨eq, unused⟩
          exact ⟨old, ((valid.shows q).available old).mpr ⟨seen, unused⟩, some.inj eq⟩
      · intro x fs'
        rw [space, owner, map_eq_some_iff]
        constructor
        · intro ⟨o, held, eq⟩
          have owns := (((valid.shows q).owner o.1 o.2).mp held).2
          rw [← (Prod.mk.inj eq).1, ← (Prod.mk.inj eq).2]
          exact ⟨rfl, owns⟩
        · intro ⟨eq, owns⟩
          exact ⟨(x, old), ((valid.shows q).owner x old).mpr ⟨seen, owns⟩,
            Prod.ext rfl (some.inj eq)⟩
    · exact (valid.shows q).congr (update_of_ne same _ _) (update_of_ne same _ _)
        (update_of_ne same _ _) (fun _ _ => Iff.rfl) rfl

theorem register_valid (valid : c.Valid) : (c.register p fs).Valid := by
  rw [Contents.register]
  split
  · next seen => exact updateFreespace_valid valid seen
  · next unseen =>
    have unused : ∀ use x, ¬c.Row use x p := fun use x row =>
      unseen (valid.registered use x p row)
    constructor
    · intro use x q row
      by_cases same : q = p
      · exact absurd (same ▸ row) (unused use x)
      · exact (congrArg Option.isSome (update_of_ne same _ _)).trans
          (valid.registered use x q row)
    · intro q
      by_cases same : q = p
      · subst same
        constructor
        · intro fs'
          simp only [update_self]
          exact (and_iff_left unused).symm
        · intro x fs'
          have unowned : c.owner q ≠ some (x, fs') := fun own =>
            unseen (isSome_iff_exists.mpr ⟨_, (((valid.shows q).owner x fs').mp own).1⟩)
          refine iff_of_false unowned fun h => ?_
          obtain ⟨use, row⟩ := h.2.row
          exact unused use x row
      · exact (valid.shows q).congr (update_of_ne same _ _) (update_of_ne same _ _) rfl
          (fun _ _ => Iff.rfl) rfl

/-- A call that changes the policy. -/
inductive PolicyOp where
  | registerNewPage (pageid : Int) (freespace : Nat)
  | updateFreespace (pageid : Int) (freespace : Nat)
  | allocedFromPage (xid pageid : Int)
  | deallocedFromPage (xid pageid : Int)
  | transactionCompleted (xid : Int)
deriving DecidableEq, Repr

namespace PolicyOp

def run (ap : Policy) : PolicyOp → Option Policy
  | registerNewPage pageid freespace => AllocationPolicy.registerNewPage ap pageid freespace
  | updateFreespace pageid freespace => AllocationPolicy.updateFreespace ap pageid freespace
  | allocedFromPage xid pageid => AllocationPolicy.allocedFromPage ap xid pageid
  | deallocedFromPage xid pageid => AllocationPolicy.deallocedFromPage ap xid pageid
  | transactionCompleted xid => AllocationPolicy.transactionCompleted ap xid

def Nonneg : PolicyOp → Prop
  | registerNewPage pageid _ | updateFreespace pageid _ => 0 ≤ pageid
  | allocedFromPage xid pageid | deallocedFromPage xid pageid => 0 ≤ xid ∧ 0 ≤ pageid
  | transactionCompleted xid => 0 ≤ xid

/-- Room is changed of a known page, and space is taken from a page that is open to the
transaction. -/
def Permitted (ap : Policy) : PolicyOp → Prop
  | updateFreespace pageid _ => (allPagesLookupByPageid ap pageid).isSome
  | allocedFromPage xid pageid => canXidAllocFromPage ap xid pageid
  | _ => True

theorem run_sound (sound : ap.Sound) {op : PolicyOp} (nonneg : op.Nonneg)
    (permitted : op.Permitted ap) :
    ∃ ap', op.run ap = some ap' ∧ ap'.Sound ∧
      ∀ q, q < 0 → ap'.contents.space q = ap.contents.space q := by
  cases op with
  | registerNewPage p fs =>
    obtain ⟨ap', run, wf, c⟩ := registerNewPage_spec sound.wellFormed p fs
      sound.valid.unseen (sound.valid.one p)
    refine ⟨ap', run, ⟨wf, c ▸ register_valid sound.valid⟩, fun q neg => ?_⟩
    rw [c, Contents.register]
    split <;> exact update_of_ne (ne_of_lt (lt_of_lt_of_le neg nonneg)) ..
  | updateFreespace p fs =>
    obtain ⟨ap', run, wf, c⟩ := allPagesSetFreespace_spec sound.wellFormed p fs permitted
      (sound.valid.one p)
    refine ⟨ap', run, ⟨wf, c ▸ updateFreespace_valid sound.valid permitted⟩, fun q neg => ?_⟩
    rw [c]
    exact update_of_ne (ne_of_lt (lt_of_lt_of_le neg nonneg)) ..
  | allocedFromPage x p =>
    obtain ⟨_, ap', run, sound', _, _, space⟩ :=
      helperAdd_sound sound .alloced nonneg.1 nonneg.2
    refine ⟨ap', ?_, sound', fun q neg => space q (ne_of_lt (lt_of_lt_of_le neg nonneg.2))⟩
    exact (if_pos permitted).trans (congrArg (Option.map _) run)
  | deallocedFromPage x p =>
    obtain ⟨_, ap', run, sound', _, _, space⟩ :=
      helperAdd_sound sound .dealloced nonneg.1 nonneg.2
    exact ⟨ap', congrArg (Option.map _) run, sound', fun q neg =>
      space q (ne_of_lt (lt_of_lt_of_le neg nonneg.2))⟩
  | transactionCompleted x =>
    obtain ⟨ap', run, sound', _, _, space⟩ := transactionCompleted_sound sound x
    exact ⟨ap', run, sound', space⟩

theorem permitted_of_run {op : PolicyOp} (h : op.run ap = some ap') : op.Permitted ap := by
  cases op with
  | updateFreespace p fs =>
    refine Bool.eq_true_of_not_eq_false fun unseen => ?_
    have existed := (allPages_existed ap p fs).trans unseen
    simp [run, AllocationPolicy.updateFreespace, allPagesSetFreespace, existed] at h
  | allocedFromPage x p =>
    refine Bool.eq_true_of_not_eq_false fun no => ?_
    simp [run, AllocationPolicy.allocedFromPage, no] at h
  | registerNewPage _ _ | deallocedFromPage _ _ | transactionCompleted _ => trivial

end PolicyOp

/-- The policies that calls lead to. -/
inductive Reached : Policy → Prop
  | fresh (reuse : Bool) : Reached { init with reuseWithinXact := reuse }
  | call {ap ap' : Policy} (before : Reached ap) (op : PolicyOp) (nonneg : op.Nonneg)
      (run : op.run ap = some ap') : Reached ap'

theorem fresh_sound (reuse : Bool) : Policy.Sound { init with reuseWithinXact := reuse } := by
  have unused : ∀ use x p,
      ¬(Policy.contents { init with reuseWithinXact := reuse }).Row use x p := by
    intro use x p
    cases use <;> exact not_mem_empty _
  refine ⟨⟨?_, ?_, ?_, ?_⟩, fun use x p row => absurd row (unused use x p), fun p => ⟨?_, ?_⟩⟩
  · exact fun r => iff_of_false (not_mem_empty r) (not_mem_empty r)
  · exact fun r => iff_of_false (not_mem_empty r) (not_mem_empty r)
  · intro use r
    cases use <;> exact iff_of_false (not_mem_empty r) (not_mem_empty r)
  · exact fun use r row => absurd row (unused use r.xid r.pageid)
  · exact fun fs => iff_of_false (some_ne_none fs).symm fun h =>
      (some_ne_none fs).symm h.1
  · exact fun x fs => iff_of_false (some_ne_none _).symm fun h =>
      (some_ne_none fs).symm h.1

theorem reached_sound (h : Reached ap) : ap.Sound := by
  induction h with
  | fresh reuse => exact fresh_sound reuse
  | call _ op nonneg run ih =>
    obtain ⟨ap', run', sound, _⟩ := PolicyOp.run_sound ih nonneg (PolicyOp.permitted_of_run run)
    exact some.inj (run.symm.trans run') ▸ sound

theorem reached_space (h : Reached ap) (neg : q < 0) : ap.contents.space q = none := by
  induction h with
  | fresh reuse => rfl
  | call before op nonneg run ih =>
    obtain ⟨ap', run', _, space⟩ := PolicyOp.run_sound (reached_sound before) nonneg
      (PolicyOp.permitted_of_run run)
    cases run.symm.trans run'
    exact (space q neg).trans ih

theorem room_eq_some_iff {t : Tree PageFreespace.keyPageid} :
    (t.find p).map (·.freespace) = some fs ↔ ⟨p, fs⟩ ∈ t := by
  refine map_eq_some_iff.trans ⟨fun ⟨r, held, eq⟩ => ?_, fun mem => ?_⟩
  · have row := find_eq_some_iff.mp held
    have : r = ⟨p, fs⟩ := PageFreespace.mk.injEq .. ▸ ⟨row.2, eq⟩
    exact this ▸ row.1
  · exact ⟨_, find_eq_some_iff.mpr ⟨mem, rfl⟩, rfl⟩

theorem owner_eq_some_iff :
    ap.contents.owner p = some (x, fs) ↔ ⟨x, fs, p⟩ ∈ ap.pageOwners.primary := by
  refine map_eq_some_iff.trans ⟨fun ⟨r, held, eq⟩ => ?_, fun mem => ?_⟩
  · have row := find_eq_some_iff.mp held
    have : r = ⟨x, fs, p⟩ :=
      PageOwner.mk.injEq .. ▸ ⟨(Prod.mk.inj eq).1, (Prod.mk.inj eq).2, row.2⟩
    exact this ▸ row.1
  · exact ⟨_, find_eq_some_iff.mpr ⟨mem, rfl⟩, rfl⟩

/-- The views hold what the tables say, in both orders. -/
structure ViewsMatch (ap : Policy) : Prop where
  available : ∀ r, r ∈ ap.availablePages.primary ↔
    r ∈ ap.allPages ∧ ∀ x, ⟨x, r.pageid⟩ ∉ ap.xidAlloced.primary ∧
      ⟨x, r.pageid⟩ ∉ ap.xidDealloced.primary
  owners : ∀ x p, (∃ fs, ⟨x, fs, p⟩ ∈ ap.pageOwners.primary) ↔
    ((∀ y, ⟨y, p⟩ ∈ ap.xidAlloced.primary ↔ y = x) ∧ ∀ y, ⟨y, p⟩ ∉ ap.xidDealloced.primary) ∨
    (ap.reuseWithinXact = true ∧ (∀ y, ⟨y, p⟩ ∈ ap.xidAlloced.primary ↔ y = x) ∧
      ∀ y, ⟨y, p⟩ ∈ ap.xidDealloced.primary ↔ y = x) ∨
    ((∀ y, ⟨y, p⟩ ∉ ap.xidAlloced.primary) ∧ ∀ y, ⟨y, p⟩ ∈ ap.xidDealloced.primary ↔ y = x)
  orders : ap.availablePages.Agree ∧ ap.pageOwners.Agree ∧ ap.xidAlloced.Agree ∧
    ap.xidDealloced.Agree
  availableRoom : ∀ r ∈ ap.availablePages.primary, r ∈ ap.allPages
  ownersRoom : ∀ r ∈ ap.pageOwners.primary, ⟨r.pageid, r.freespace⟩ ∈ ap.allPages

theorem views_match_tables {ap : Policy} (h : Reached ap) :
    ViewsMatch ap ∧
      ∀ op : PolicyOp, op.Nonneg → op.Permitted ap → ∃ ap', op.run ap = some ap' := by
  have sound := reached_sound h
  have wf := sound.wellFormed
  refine ⟨⟨?_, ?_, ⟨wf.available, wf.owners, wf.tables .alloced, wf.tables .dealloced⟩, ?_, ?_⟩, ?_⟩
  · intro r
    have shown := (sound.valid.shows r.pageid).available r.freespace
    refine room_eq_some_iff.symm.trans (shown.trans (and_congr room_eq_some_iff ?_))
    exact ⟨fun unused x => ⟨unused .alloced x, unused .dealloced x⟩,
      fun unused use x => Use.casesOn use (unused x).1 (unused x).2⟩
  · intro x p
    constructor
    · intro ⟨fs, row⟩
      exact (((sound.valid.shows p).owner x fs).mp (owner_eq_some_iff.mpr row)).2
    · intro owns
      obtain ⟨use, row⟩ := Contents.Owns.row (c := ap.contents) owns
      obtain ⟨fs, space⟩ := isSome_iff_exists.mp (sound.valid.registered use x p row)
      exact ⟨fs, owner_eq_some_iff.mp (((sound.valid.shows p).owner x fs).mpr ⟨space, owns⟩)⟩
  · intro r row
    have shown := (sound.valid.shows r.pageid).available r.freespace
    exact room_eq_some_iff.mp (shown.mp (room_eq_some_iff.mpr row)).1
  · intro r row
    have shown := (sound.valid.shows r.pageid).owner r.xid r.freespace
    exact room_eq_some_iff.mp (shown.mp (owner_eq_some_iff.mpr row)).1
  · intro op nonneg permitted
    obtain ⟨ap', run, _⟩ := PolicyOp.run_sound sound nonneg permitted
    exact ⟨ap', run⟩

theorem Reached.calls {ops : List PolicyOp} (h : Reached ap) (nonneg : ∀ op ∈ ops, op.Nonneg)
    (run : ops.foldlM PolicyOp.run ap = some ap') : Reached ap' :=
  Fallible.foldlM_some_invariant h (fun _ op mem _ h => h.call op (nonneg op mem)) run

/-- A page that one transaction has allocated from and another one has deallocated from
belongs to neither. -/
theorem views_match_tables_shared :
    ∃ ap, [.registerNewPage 7 100, .allocedFromPage 1 7, .deallocedFromPage 2 7].foldlM
        PolicyOp.run { init with reuseWithinXact := false } = some ap ∧
      ap.pageOwners.primary.rows = [] ∧ ViewsMatch ap := by
  obtain ⟨ap, run, unowned⟩ : ∃ ap,
      [.registerNewPage 7 100, .allocedFromPage 1 7, .deallocedFromPage 2 7].foldlM PolicyOp.run
        { init with reuseWithinXact := false } = some ap ∧ ap.pageOwners.primary.rows = [] := by
    decide +kernel
  have reached : Reached ap := (Reached.fresh false).calls (by simp [PolicyOp.Nonneg]) run
  exact ⟨ap, run, unowned, (views_match_tables reached).1⟩

end Stasis.AllocationPolicy
