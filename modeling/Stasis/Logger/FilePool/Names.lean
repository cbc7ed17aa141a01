import Mathlib.Data.Int.Interval
import Stasis.Logger.FilePool.Safety
import Stasis.Library.Runs

/-!
The names of the files of the pool.

A live file is named after the offset of its chunk. A truncated file keeps its name, with a tilde
behind it. The preallocation worker gives up the mutex while it writes a new file, and then names
it after the number of dead files at that time, also with a tilde. A rename replaces the file that
has the new name. `overwritten` is no part of the program: it records that this has happened.
-/
namespace Stasis.FilePool
open Fallible Function List

inductive Name where
  | live (lsn : Int)
  | dead (lsn : Int)
  | preallocating
deriving DecidableEq, Repr

/-- The names of the files that exist. -/
structure Directory where
  has : Name → Bool
  overwritten : Bool

namespace Directory

def create (dir : Directory) (name : Name) : Directory :=
  ⟨update dir.has name true, dir.overwritten || dir.has name⟩

def rename (dir : Directory) (old new : Name) : Except Stop Directory :=
  if dir.has old then
    .ok ⟨update (update dir.has old false) new true,
      dir.overwritten || dir.has new⟩
  else .error .fails

end Directory

def deadThreshold : Nat := 1

structure Names where
  live : List Int
  dead : List Int
  dir : Directory
  preallocating : Bool

def chunkOf (live : List Int) (lsn : Int) : Option Nat :=
  getChunkFromOffset (live.map fun off => ⟨off, 0⟩) lsn

namespace Names

/-- An empty log. -/
def init : Names := ⟨[1], [], ⟨fun name => name = .live 1, false⟩, false⟩

/-- The preallocation worker finds too few dead files, and gives up the mutex. -/
def preallocStart (s : Names) : Except Stop Names :=
  if s.preallocating = false ∧ s.dead.length < deadThreshold then
    .ok { s with dir := s.dir.create .preallocating, preallocating := true }
  else .error .waits

def preallocFinish (s : Names) : Except Stop Names :=
  if s.preallocating then do
    let dir ← s.dir.rename .preallocating (.dead s.dead.length)
    .ok { s with dead := s.dead ++ [(s.dead.length : Int)], dir := dir, preallocating := false }
  else .error .waits

def appendChunk (s : Names) (newOffset : Int) : Except Stop Names :=
  match s.dead.getLast? with
  | some old => do
      let dir ← s.dir.rename (.dead old) (.live newOffset)
      .ok { s with live := s.live ++ [newOffset], dead := s.dead.dropLast, dir := dir }
  | none =>
    .ok { s with live := s.live ++ [newOffset], dir := s.dir.create (.live newOffset) }

def renameAll (dir : Directory) (offsets : List Int) : Except Stop Directory :=
  offsets.foldlM (fun dir lsn => dir.rename (.live lsn) (.dead lsn)) dir

def truncate (s : Names) (lsn : Int) : Except Stop Names :=
  match chunkOf s.live lsn with
  | some chunk => do
      let dir ← renameAll s.dir (s.live.take chunk)
      .ok { s with live := s.live.drop chunk, dead := s.dead ++ s.live.take chunk, dir := dir }
  | none => .error .fails

end Names

inductive NameOp where
  | preallocStart
  | preallocFinish
  | appendChunk (newOffset : Int)
  | truncate (lsn : Int)
deriving DecidableEq, Repr

def NameOp.run (s : Names) : NameOp → Except Stop Names
  | preallocStart => s.preallocStart
  | preallocFinish => s.preallocFinish
  | appendChunk newOffset => s.appendChunk newOffset
  | truncate lsn => s.truncate lsn

/-- Chunks are appended behind all others, and the log is truncated at an offset that has a
chunk. -/
def NameOp.Allowed (s : Names) : NameOp → Prop
  | appendChunk newOffset => ∀ off ∈ s.live, off < newOffset
  | truncate lsn => chunkOf s.live lsn ≠ none
  | preallocStart | preallocFinish => True

/-- Moreover, no dead file has the name that the preallocation worker is about to use. -/
def NameOp.Fresh (s : Names) (op : NameOp) : Prop :=
  op.Allowed s ∧ (op = .preallocFinish → (s.dead.length : Int) ∉ s.dead)

instance (s : Names) : (op : NameOp) → Decidable (op.Allowed s)
  | .appendChunk newOffset => inferInstanceAs (Decidable (∀ off ∈ s.live, off < newOffset))
  | .truncate lsn => inferInstanceAs (Decidable (chunkOf s.live lsn ≠ none))
  | .preallocStart | .preallocFinish => isTrue trivial

instance (s : Names) (op : NameOp) : Decidable (op.Fresh s) :=
  inferInstanceAs (Decidable (_ ∧ (_ → _)))

/-- The names that the pool lists. -/
def Names.listed (s : Names) : List Name := s.live.map .live ++ s.dead.map .dead

/-- The names are distinct, they are those of the files that exist, and those of dead files come
before the live ones. -/
structure NamesInv (s : Names) : Prop where
  nonempty : s.live ≠ []
  sorted : s.live.Pairwise (· < ·)
  positive : ∀ off ∈ s.live, 1 ≤ off
  nodup : s.dead.Nodup
  below : ∀ lsn ∈ s.dead, ∀ off ∈ s.live, lsn < off
  truncated : s.preallocating = true → ∀ lsn ∈ s.dead, 1 ≤ lsn
  hasLive : ∀ off, s.dir.has (.live off) = true ↔ off ∈ s.live
  hasDead : ∀ lsn, s.dir.has (.dead lsn) = true ↔ lsn ∈ s.dead
  hasNew : s.dir.has .preallocating = s.preallocating
  fresh : s.dir.overwritten = false

section Rename
variable {dir : Directory}

theorem rename_ok (there : dir.has old = true) (free : dir.has new = false) :
    ∃ after, dir.rename old new = .ok after ∧ after.overwritten = dir.overwritten ∧
      ∀ name, after.has name = if name = new then true else if name = old then false
        else dir.has name := by
  refine ⟨_, if_pos there, ?_, fun name => ?_⟩
  · show (dir.overwritten || dir.has new) = _
    rw [free, Bool.or_false]
  · show update (update dir.has old false) new true name = _
    rw [update_apply, update_apply]

theorem create_has (dir : Directory) (new name : Name) :
    (dir.create new).has name = if name = new then true else dir.has name :=
  update_apply ..

theorem renameAll_ok (nodup : offsets.Nodup) (there : ∀ off ∈ offsets, dir.has (.live off) = true)
    (free : ∀ off ∈ offsets, dir.has (.dead off) = false) :
    ∃ after, Names.renameAll dir offsets = .ok after ∧ after.overwritten = dir.overwritten ∧
      (∀ off, after.has (.live off) = true ↔ dir.has (.live off) = true ∧ off ∉ offsets) ∧
      (∀ lsn, after.has (.dead lsn) = true ↔ dir.has (.dead lsn) = true ∨ lsn ∈ offsets) ∧
      after.has .preallocating = dir.has .preallocating := by
  induction offsets generalizing dir with
  | nil => exact ⟨dir, rfl, rfl, by simp, by simp, rfl⟩
  | cons off offsets ih =>
    obtain ⟨mid, first, kept, has⟩ :=
      rename_ok (there off mem_cons_self) (free off mem_cons_self)
    have absent := (nodup_cons.mp nodup).1
    have there' : ∀ o ∈ offsets, mid.has (.live o) = true := by
      intro o mem
      have ne : o ≠ off := fun eq => absent (eq ▸ mem)
      rw [has]
      simp [ne, there o (mem_cons_of_mem _ mem)]
    have free' : ∀ o ∈ offsets, mid.has (.dead o) = false := by
      intro o mem
      have ne : o ≠ off := fun eq => absent (eq ▸ mem)
      rw [has]
      simp [ne, free o (mem_cons_of_mem _ mem)]
    obtain ⟨after, rest, kept', live, dead, new⟩ := ih (nodup_cons.mp nodup).2 there' free'
    refine ⟨after, ?_, kept'.trans kept, fun o => ?_, fun o => ?_, ?_⟩
    · rw [Names.renameAll, foldlM_cons]
      exact bind_ok first rest
    · rw [live, has]
      by_cases same : o = off
      · simp [same]
      · simp [same]
    · rw [dead, has]
      by_cases same : o = off
      · simp [same]
      · simp [same]
    · rw [new, has]
      simp

end Rename

section Steps
variable {s : Names}

/-- What an operation does in a state with distinct names: nothing yet, or a step to such a
state. -/
def Succeeds (s : Names) (op : NameOp) : Prop :=
  op.run s = .error .waits ∨ ∃ after, op.run s = .ok after ∧ NamesInv after

theorem has_eq_false {dir : Directory} {p : Prop} (has : dir.has name = true ↔ p) (absent : ¬p) :
    dir.has name = false :=
  Bool.eq_false_of_not_eq_true fun there => absent (has.mp there)

theorem has_or_new {name : Int → Name} {held : Bool} (inj : name a = name b → a = b) :
    (if name a = name b then true else held) = true ↔ held = true ∨ a = b := by
  by_cases same : a = b
  · rw [if_pos (congrArg name same)]
    exact iff_of_true rfl (.inr same)
  · rw [if_neg fun eq => same (inj eq)]
    exact (or_iff_left same).symm

section
variable (h : NamesInv s)
include h

theorem NamesInv.length_lt (truncated : ∀ lsn ∈ s.dead, 1 ≤ lsn) {off : Int} (mem : off ∈ s.live) :
    (s.dead.length : Int) < off := by
  have sub : s.dead.toFinset ⊆ Finset.Ico 1 off := by
    intro lsn held
    have held := mem_toFinset.mp held
    exact Finset.mem_Ico.mpr ⟨truncated lsn held, h.below lsn held off mem⟩
  have card := Finset.card_le_card sub
  rw [toFinset_card_of_nodup h.nodup, Int.card_Ico] at card
  have low := h.positive off mem
  omega

theorem NamesInv.preallocStart : Succeeds s .preallocStart := by
  rw [Succeeds, NameOp.run, Names.preallocStart]
  split
  · next start =>
    refine .inr ⟨_, rfl, h.nonempty, h.sorted, h.positive, h.nodup, h.below, fun _ => ?_, fun off => ?_,
      fun lsn => ?_, ?_, ?_⟩
    · have empty : s.dead = [] := length_eq_zero_iff.mp (Nat.lt_one_iff.mp start.2)
      rw [show Names.dead _ = s.dead from rfl, empty]
      nofun
    · rw [create_has, if_neg nofun]
      exact h.hasLive off
    · rw [create_has, if_neg nofun]
      exact h.hasDead lsn
    · rw [create_has, if_pos rfl]
    · show (s.dir.overwritten || s.dir.has .preallocating) = false
      rw [h.fresh, h.hasNew, start.1]
      rfl
  · exact .inl rfl

theorem NamesInv.preallocFinish (free : (s.dead.length : Int) ∉ s.dead) :
    Succeeds s .preallocFinish := by
  rw [Succeeds, NameOp.run, Names.preallocFinish]
  split
  · next going =>
    have truncated := h.truncated going
    obtain ⟨dir, renamed, kept, has⟩ := rename_ok (h.hasNew.trans going)
      (has_eq_false (h.hasDead s.dead.length) free)
    refine .inr ⟨_, bind_ok renamed rfl, h.nonempty, h.sorted, h.positive, ?_, ?_, nofun,
      fun off => ?_, fun lsn => ?_, ?_, kept.trans h.fresh⟩
    · refine nodup_append.mpr ⟨h.nodup, nodup_singleton _, fun lsn mem x single => ?_⟩
      rw [mem_singleton.mp single]
      exact fun eq => free (eq ▸ mem)
    · intro lsn mem off live
      rcases mem_append.mp mem with old | new
      · exact h.below lsn old off live
      · rw [mem_singleton.mp new]
        exact h.length_lt truncated live
    · rw [has, if_neg nofun, if_neg nofun]
      exact h.hasLive off
    · rw [has, if_neg (nofun : Name.dead lsn ≠ .preallocating), has_or_new Name.dead.inj, h.hasDead,
        mem_append, mem_singleton]
    · rw [has, if_neg nofun, if_pos rfl]
  · exact .inl rfl

theorem NamesInv.appendChunk {newOffset : Int} (behind : ∀ off ∈ s.live, off < newOffset) :
    Succeeds s (.appendChunk newOffset) := by
  have absent : newOffset ∉ s.live := fun mem => absurd (behind newOffset mem) (lt_irrefl _)
  have free := has_eq_false (h.hasLive newOffset) absent
  have sorted : (s.live ++ [newOffset]).Pairwise (· < ·) := by
    refine pairwise_append.mpr ⟨h.sorted, pairwise_singleton .., fun off mem x single => ?_⟩
    rw [mem_singleton.mp single]
    exact behind off mem
  obtain ⟨first, there⟩ := exists_mem_of_ne_nil s.live h.nonempty
  have positive : ∀ off ∈ s.live ++ [newOffset], 1 ≤ off := by
    intro off mem
    rcases mem_append.mp mem with old | new
    · exact h.positive off old
    · rw [mem_singleton.mp new]
      have low := h.positive first there
      have lt := behind first there
      omega
  have below : ∀ lsn ∈ s.dead, ∀ off ∈ s.live ++ [newOffset], lsn < off := by
    intro lsn mem off live
    rcases mem_append.mp live with old | new
    · exact h.below lsn mem off old
    · rw [mem_singleton.mp new]
      exact lt_trans (h.below lsn mem first there) (behind first there)
  rw [Succeeds, NameOp.run, Names.appendChunk]
  split
  · next old last =>
    obtain ⟨front, concat⟩ := getLast?_eq_some_iff.mp last
    have front_eq : s.dead.dropLast = front := by rw [concat, dropLast_concat]
    have nodup := h.nodup
    rw [concat] at nodup
    obtain ⟨nodupFront, _, distinct⟩ := nodup_append.mp nodup
    have gone : old ∉ front := fun mem => distinct old mem old (mem_singleton_self old) rfl
    have sub : ∀ lsn ∈ s.dead.dropLast, lsn ∈ s.dead := fun lsn mem => dropLast_subset _ mem
    obtain ⟨dir, renamed, kept, has⟩ :=
      rename_ok ((h.hasDead old).mpr (mem_of_getLast? last)) free
    refine .inr ⟨_, bind_ok renamed rfl, append_ne_nil_of_right_ne_nil _ nofun, sorted,
      positive,
      front_eq ▸ nodupFront,
      fun lsn mem => below lsn (sub lsn mem), fun going lsn mem => h.truncated going lsn (sub lsn mem),
      fun off => ?_, fun lsn => ?_, ?_, kept.trans h.fresh⟩
    · rw [has, if_neg (nofun : Name.live off ≠ .dead old), has_or_new Name.live.inj, h.hasLive,
        mem_append, mem_singleton]
    · rw [has, if_neg nofun, show Names.dead _ = s.dead.dropLast from rfl, front_eq]
      by_cases same : lsn = old
      · rw [if_pos (by rw [same]), same]
        exact iff_of_false nofun gone
      · rw [if_neg (fun eq => same (Name.dead.inj eq)), h.hasDead, concat, mem_append,
          mem_singleton]
        exact or_iff_left same
    · rw [has, if_neg nofun, if_neg nofun]
      exact h.hasNew
  · next none =>
    refine .inr ⟨_, rfl, append_ne_nil_of_right_ne_nil _ nofun, sorted, positive, h.nodup, below,
      h.truncated,
      fun off => ?_, fun lsn => ?_, ?_, ?_⟩
    · rw [create_has, has_or_new Name.live.inj, h.hasLive, mem_append, mem_singleton]
    · rw [create_has, if_neg nofun]
      exact h.hasDead lsn
    · rw [create_has, if_neg nofun]
      exact h.hasNew
    · show (s.dir.overwritten || s.dir.has (.live newOffset)) = false
      rw [h.fresh, free]
      rfl

theorem NamesInv.truncate {lsn : Int} (found : chunkOf s.live lsn ≠ none) :
    Succeeds s (.truncate lsn) := by
  have take : ∀ {chunk : Nat} {off : Int}, off ∈ s.live.take chunk → off ∈ s.live :=
    mem_of_mem_take
  have distinct : ∀ {chunk : Nat} {a b : Int}, a ∈ s.live.take chunk → b ∈ s.live.drop chunk →
      a < b := by
    intro chunk a b first second
    have sorted := h.sorted
    rw [← take_append_drop chunk s.live] at sorted
    exact (pairwise_append.mp sorted).2.2 a first b second
  rw [Succeeds, NameOp.run, Names.truncate]
  split
  · next chunk here =>
    have nodup : (s.live.take chunk).Nodup :=
      (h.sorted.imp ne_of_lt).sublist (take_sublist ..)
    have fresh : ∀ off ∈ s.live.take chunk, off ∉ s.dead := fun off mem dead =>
      absurd (h.below off dead off (take mem)) (lt_irrefl _)
    obtain ⟨dir, renamed, kept, live, dead, new⟩ := renameAll_ok nodup
      (fun off mem => (h.hasLive off).mpr (take mem))
      (fun off mem => has_eq_false (h.hasDead off) (fresh off mem))
    refine .inr ⟨_, bind_ok renamed rfl, ?_, h.sorted.sublist (drop_sublist ..),
      fun off mem => h.positive off (mem_of_mem_drop mem), ?_, ?_, ?_, fun off => ?_,
      fun lsn => ?_, new.trans h.hasNew, kept.trans h.fresh⟩
    · obtain ⟨c, inside, _⟩ := getChunkFromOffset_inChunk here
      have short := (List.getElem?_eq_some_iff.mp inside).1
      rw [length_map] at short
      exact fun empty => absurd (drop_eq_nil_iff.mp empty) (not_le.mpr short)
    · refine nodup_append.mpr ⟨h.nodup, nodup, fun a mem b mem' eq => ?_⟩
      exact fresh b mem' (eq ▸ mem)
    · intro a mem b kept
      rcases mem_append.mp mem with old | now
      · exact h.below a old b (mem_of_mem_drop kept)
      · exact distinct now kept
    · intro going a mem
      rcases mem_append.mp mem with old | now
      · exact h.truncated going a old
      · exact h.positive a (take now)
    · rw [live, h.hasLive]
      refine ⟨fun kept => ?_, fun kept => ⟨mem_of_mem_drop kept, fun gone => ?_⟩⟩
      · have split := kept.1
        rw [← take_append_drop chunk s.live] at split
        exact (mem_append.mp split).resolve_left kept.2
      · exact absurd (distinct gone kept) (lt_irrefl _)
    · rw [dead, h.hasDead, mem_append]
  · next none => exact absurd none found

theorem NamesInv.step (fresh : op.Fresh s) : Succeeds s op := by
  cases op with
  | preallocStart => exact h.preallocStart
  | preallocFinish => exact h.preallocFinish (fresh.2 rfl)
  | appendChunk newOffset => exact h.appendChunk fresh.1
  | truncate lsn => exact h.truncate fresh.1

end

theorem NamesInv.init : NamesInv .init := by
  refine ⟨nofun, pairwise_singleton .., fun off mem => ?_, nodup_nil, nofun, nofun,
    fun off => ?_, fun lsn => ?_, rfl, rfl⟩
  · rw [mem_singleton.mp mem]
  · rw [show Names.live _ = [1] from rfl, mem_singleton]
    exact decide_eq_true_iff.trans ⟨Name.live.inj, congrArg _⟩
  · exact iff_of_false nofun not_mem_nil

/-- The names that are listed differ, they have files, no file was replaced, and no rename will
fail. -/
structure Distinct (s : Names) : Prop where
  nodup : s.listed.Nodup
  exist : ∀ name ∈ s.listed, s.dir.has name = true
  kept : s.dir.overwritten = false
  renames : ∀ op : NameOp, op.Fresh s → op.run s ≠ .error .fails

theorem NamesInv.distinct (h : NamesInv s) : Distinct s := by
  refine ⟨?_, fun name mem => ?_, h.fresh, fun op fresh fails => ?_⟩
  · refine nodup_append.mpr ⟨?_, ?_, fun a live b dead => ?_⟩
    · exact (h.sorted.imp ne_of_lt).map _ fun _ _ ne eq => ne (Name.live.inj eq)
    · exact h.nodup.map fun _ _ eq => Name.dead.inj eq
    · obtain ⟨_, _, rfl⟩ := mem_map.mp live
      obtain ⟨_, _, rfl⟩ := mem_map.mp dead
      nofun
  · rcases mem_append.mp mem with live | dead
    · obtain ⟨off, held, rfl⟩ := mem_map.mp live
      exact (h.hasLive off).mpr held
    · obtain ⟨lsn, held, rfl⟩ := mem_map.mp dead
      exact (h.hasDead lsn).mpr held
  · rcases h.step fresh with waits | ⟨after, ran, _⟩
    · rw [waits] at fails
      cases fails
    · rw [ran] at fails
      cases fails

end Steps

abbrev NamesReached (Allowed : Names → NameOp → Prop) : Names → Prop :=
  Runs.Reached (fun s op => op.run s) Allowed .init

theorem names_inv (h : NamesReached (fun s op => op.Fresh s) s) : NamesInv s := by
  refine h.invariant .init fun s op after _ inv fresh ran => ?_
  rcases inv.step fresh with waits | ⟨after', ran', inv'⟩
  · rw [waits] at ran
    cases ran
  · rw [ran'] at ran
    cases ran
    exact inv'

theorem names_distinct {s : Names} (h : NamesReached (fun s op => op.Fresh s) s) : Distinct s :=
  (names_inv h).distinct

/-- A second chunk while a file is being written in the background. -/
def secondChunk : List NameOp := [.preallocStart, .appendChunk 134217729]

theorem names_distinct_second : ∃ s : Names, NamesReached (fun s op => op.Fresh s) s ∧
    s.listed = [.live 1, .live 134217729, .dead 0] ∧ Distinct s := by
  obtain ⟨s, reached, listed⟩ : ∃ s, NamesReached (fun s op => op.Fresh s) s ∧
      s.listed = [.live 1, .live 134217729, .dead 0] :=
    Runs.Reached.of_steps (secondChunk ++ [.preallocFinish]) (by decide +kernel)
  exact ⟨s, reached, listed, names_distinct reached⟩

/-- The first chunk is truncated before the new file gets its name. Both are called 1, and one
replaces the other; when two chunks have been appended, the second rename has failed. -/
theorem names_clash : ∃ s : Names, NamesReached (fun s op => op.Allowed s) s ∧
    s.listed = [.live 134217729, .dead 1, .dead 1] ∧ s.dir.overwritten = true ∧
    ∃ after, NamesReached (fun s op => op.Allowed s) after ∧
      after.listed = [.live 134217729, .live 268435457, .dead 1] ∧
      (NameOp.appendChunk 402653185).run after = .error .fails := by
  obtain ⟨s, reached, listed, overwritten⟩ : ∃ s, NamesReached (fun s op => op.Allowed s) s ∧
      s.listed = [.live 134217729, .dead 1, .dead 1] ∧ s.dir.overwritten = true :=
    Runs.Reached.of_steps (secondChunk ++ [.truncate 134217729, .preallocFinish]) (by decide +kernel)
  exact ⟨s, reached, listed, overwritten, Runs.Reached.of_steps (secondChunk ++
    [.truncate 134217729, .preallocFinish, .appendChunk 268435457]) (by decide +kernel)⟩

section Projection
variable {pool after : Pool} {n : Names}

/-- The names are those of the files of a pool. -/
structure Projects (pool : Pool) (n : Names) : Prop where
  live : n.live = pool.live.map (·.offset)
  dead : n.dead.length = pool.dead.length

/-- What a step of the pool does to the names of its files. -/
def PoolOp.names (pool after : Pool) : PoolOp → List NameOp
  | place _ => (after.live.drop pool.live.length).map fun c => .appendChunk c.offset
  | truncate lsn => [.truncate lsn]
  | prealloc => [.preallocFinish]
  | _ => []

theorem chunkOf_offsets (live : List Chunk) (lsn : Int) :
    chunkOf (live.map (·.offset)) lsn = getChunkFromOffset live lsn := by
  rw [chunkOf, map_map, getChunkFromOffset, getChunkFromOffset, getLast?_map,
    length_map, findIdx?_map]
  cases live.getLast? with
  | none => rfl
  | some last => rfl

theorem place_live (step : pool.place thread = .ok after) :
    (after.live = pool.live ∧ after.dead = pool.dead) ∨ ∃ c, after.live = pool.live ++ [c] ∧
      after.dead.length = pool.dead.length - 1 := by
  obtain ⟨_, _, placed, _, ensured, rest⟩ := Pool.place_ok step
  obtain ⟨live, dead⟩ : after.live = placed.live ∧ after.dead = placed.dead := by
    rcases rest with ⟨_, _, _, rfl⟩ | ⟨_, rfl⟩
    · exact ⟨rfl, rfl⟩
    · exact ⟨rfl, rfl⟩
  rw [live, dead]
  rcases Pool.ensureChunk_ok ensured with ⟨_, _, rfl⟩ | ⟨_, rfl⟩
  · exact .inl ⟨rfl, rfl⟩
  · rw [Pool.appendChunk]
    split
    · exact .inr ⟨_, rfl, length_dropLast⟩
    · next none => exact .inr ⟨_, rfl, by rw [getLast?_eq_none_iff.mp none]; rfl⟩

/-- The renames have to wait, or they lead to the names of the files of a pool. -/
def Renames (after : Pool) (n : Names) (ops : List NameOp) : Prop :=
  ops.foldlM NameOp.run n = .error .waits ∨
    ∃ n', ops.foldlM NameOp.run n = .ok n' ∧ NamesInv n' ∧ Projects after n'

theorem Succeeds.renames (h : Succeeds n op)
    (projects : ∀ n', op.run n = .ok n' → Projects after n') : Renames after n [op] := by
  rcases h with waits | ⟨n', ran, inv⟩
  · exact .inl (bind_eq_error.mpr (.inl waits))
  · exact .inr ⟨n', bind_ok ran rfl, inv, projects n' ran⟩

theorem Projects.renames (p : Projects pool n) (h : Inv crc32 start pool) (names : NamesInv n)
    {op : PoolOp} (free : op = .prealloc → (n.dead.length : Int) ∉ n.dead)
    (run : op.run crc32 pool = .ok after) : Renames after n (op.names pool after) := by
  have keep : after.live = pool.live → after.dead = pool.dead → Renames after n [] := by
    intro live dead
    exact .inr ⟨n, rfl, names, live ▸ p.live, dead ▸ p.dead⟩
  cases op with
  | place =>
    rcases place_live run with ⟨live, dead⟩ | ⟨c, live, dead⟩
    · rw [PoolOp.names, live, drop_length, map_nil]
      exact keep live dead
    · rw [PoolOp.names, live, drop_left, map_singleton]
      refine (names.appendChunk fun off mem => ?_).renames fun n' ran => ?_
      · have sorted := (h.place run).chunks.sorted
        rw [live] at sorted
        rw [p.live] at mem
        obtain ⟨d, held, rfl⟩ := mem_map.mp mem
        exact (pairwise_append.mp sorted).2.2 d held c (mem_singleton_self c)
      · have live' : n.live ++ [c.offset] = after.live.map (·.offset) := by
          rw [live, p.live, map_append, map_singleton]
        rw [NameOp.run, Names.appendChunk] at ran
        split at ran
        · obtain ⟨_, _, eq⟩ := bind_eq_ok.mp ran
          cases eq
          exact ⟨live', by rw [dead, length_dropLast, p.dead]⟩
        · next none =>
          cases ran
          exact ⟨live', by rw [dead, ← p.dead, getLast?_eq_none_iff.mp none]; rfl⟩
  | truncate =>
    obtain ⟨chunk, found, rfl⟩ := Pool.truncate_ok run
    rw [← chunkOf_offsets, ← p.live] at found
    refine (names.truncate (by rw [found]; nofun)).renames fun n' ran => ?_
    rw [NameOp.run, Names.truncate, found] at ran
    obtain ⟨_, _, eq⟩ := bind_eq_ok.mp ran
    cases eq
    refine ⟨?_, ?_⟩
    · rw [p.live, map_drop]
    · rw [p.live, length_append, length_append, p.dead, ← map_take, length_map, length_map]
  | prealloc =>
    cases run
    refine (names.preallocFinish (free rfl)).renames fun n' ran => ?_
    obtain ⟨_, renamed⟩ := guarded_eq_ok.mp ran
    obtain ⟨_, _, eq⟩ := bind_eq_ok.mp renamed
    cases eq
    exact ⟨p.live, by rw [length_append, p.dead, Pool.preallocFile, length_append]; rfl⟩
  | reserveSpace =>
    obtain ⟨_, _, _, _, rfl⟩ := Pool.reserveSpace_ok run
    exact keep rfl rfl
  | flushed =>
    obtain ⟨_, _, _, _, _, rfl⟩ := Pool.flushed_ok run
    exact keep rfl rfl
  | writeEntry =>
    obtain ⟨_, _, _, _, rfl⟩ := Pool.writeEntry_ok run
    exact keep rfl rfl
  | writeEntryDone =>
    obtain ⟨_, _, _, _, _, rfl⟩ := Pool.writeEntryDone_ok run
    exact keep rfl rfl
  | consume =>
    obtain ⟨_, _, _, rfl⟩ := Pool.consume_ok run
    exact keep rfl rfl
  | lookup =>
    obtain ⟨_, _, _, _, _, _, _, _, _, rfl⟩ := Pool.lookup_ok run
    exact keep rfl rfl
  | pwrite =>
    obtain ⟨_, _, _, _, _, _, _, _, _, _, rfl⟩ := Pool.pwrite_ok run
    exact keep rfl rfl
  | closeChunk =>
    obtain ⟨_, _, _, _, _, _, _, _, _, _, rfl⟩ := Pool.closeChunk_ok run
    exact keep rfl rfl
  | finish =>
    obtain ⟨_, _, _, _, _, _, _, _, rfl⟩ := Pool.finish_ok run
    exact keep rfl rfl
  | requestFlush =>
    obtain ⟨_, _, rfl⟩ := Pool.callRing_ok run
    exact keep rfl rfl

/-- A step of the pool together with the renames that it makes, or the first step of the
preallocation worker. -/
def runNamed (crc32 : List UInt8 → UInt32) (s : Pool × Names) :
    Option PoolOp → Except Stop (Pool × Names)
  | some op => do
    let after ← op.run crc32 s.1
    .ok (after, ← (op.names s.1 after).foldlM NameOp.run s.2)
  | none => do .ok (s.1, ← NameOp.preallocStart.run s.2)

/-- No dead file has the name that the preallocation worker is about to use. -/
abbrev NamedAllowed (s : Pool × Names) (step : Option PoolOp) : Prop :=
  ∀ op ∈ step, op.Allowed s.1 ∧ (op = .prealloc → (s.2.dead.length : Int) ∉ s.2.dead)

abbrev NamedReached (crc32 : List UInt8 → UInt32) (pool : Pool) : Pool × Names → Prop :=
  Runs.Reached (runNamed crc32) NamedAllowed (pool, .init)

structure Named (crc32 : List UInt8 → UInt32) (start : Int) (s : Pool × Names) : Prop where
  inv : Inv crc32 start s.1
  names : NamesInv s.2
  projects : Projects s.1 s.2

theorem Named.step (h : Named crc32 start s) (allowed : NamedAllowed s a) :
    runNamed crc32 s a = .error .waits ∨
      ∃ after, runNamed crc32 s a = .ok after ∧ Named crc32 start after := by
  cases a with
  | none =>
    rcases h.names.preallocStart with waits | ⟨n, ran, names⟩
    · exact .inl (bind_eq_error.mpr (.inl waits))
    · refine .inr ⟨(s.1, n), bind_ok ran rfl, h.inv, names, ?_⟩
      obtain ⟨_, eq⟩ := guarded_eq_ok.mp ran
      cases eq
      exact ⟨h.projects.live, h.projects.dead⟩
  | some op =>
    obtain ⟨allowed, free⟩ := allowed op rfl
    cases ran : op.run crc32 s.1 with
    | error e =>
      cases e with
      | waits => exact .inl (bind_eq_error.mpr (.inl ran))
      | fails => exact absurd ran (h.inv.run_ne_fails allowed)
    | ok after =>
      rcases h.projects.renames h.inv h.names free ran with waits | ⟨n, renamed, names, projects⟩
      · exact .inl (bind_ok ran (bind_eq_error.mpr (.inl waits)))
      · exact .inr ⟨(after, n), bind_ok ran (bind_ok renamed rfl), h.inv.step allowed ran, names,
          projects⟩

/-- In every interleaving with the preallocation worker, the files of the pool have the names that
it lists, these differ, and no step of the pool fails, nor does a rename. -/
theorem pool_files_named {start : Nat} (opened : Opened crc32 start pool)
    (first : Projects pool .init) (h : NamedReached crc32 pool s) :
    Projects s.1 s.2 ∧ Distinct s.2 ∧
      ∀ step, NamedAllowed s step → runNamed crc32 s step ≠ .error .fails := by
  have named : Named crc32 start s := by
    refine h.invariant ⟨opened.inv, .init, first⟩ fun s step after _ h allowed ran => ?_
    rcases h.step allowed with waits | ⟨_, ran', next⟩
    · cases ran.symm.trans waits
    · cases ran.symm.trans ran'
      exact next
  refine ⟨named.projects, named.names.distinct, fun step allowed fails => ?_⟩
  rcases named.step allowed with waits | ⟨_, ran, _⟩
  · cases fails.symm.trans waits
  · cases fails.symm.trans ran

theorem pool_files_named_second : ∃ s : Pool × Names,
    s.2.listed = [.live 1, .live 134217600, .dead 0] ∧ Distinct s.2 := by
  obtain ⟨s, reached, listed⟩ : ∃ s, NamedReached (fun _ => 0) nearlyFull s ∧
      s.2.listed = [.live 1, .live 134217600, .dead 0] :=
    Runs.Reached.of_steps [none, some (.reserveSpace 1 200), some (.place 1), some .prealloc]
      (by decide +kernel)
  exact ⟨s, listed, (pool_files_named nearlyFull_opened ⟨rfl, rfl⟩ reached).2.1⟩

end Projection

end Stasis.FilePool
