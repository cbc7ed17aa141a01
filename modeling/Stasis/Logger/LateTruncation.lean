import Stasis.Logger.InMemory
import Stasis.Logger.SafeWrites.Truncation
import Stasis.Logger.FilePool.Read

/-!
Truncation of the three logs.

Threads compute truncation points on their own, so that a truncation may come late, when a
larger one was done. A truncation raises the truncation point no further than it says,
leaves the entries behind alone, and does nothing if it is late. The file pool looks up the
chunk of the truncation point among those that are left, and has none for one that is gone.
-/
namespace Stasis
open List RawLogEntry

/-- What a truncation at `lsn` does to a log. -/
structure Harmless {S E : Type} (point : S → Int) (Holds Reads : S → Int → E → Prop)
    (Exempt : E → Prop) (lsn : Int) (s after : S) : Prop where
  rises : point s ≤ point after
  bounded : point after ≤ max (point s) lsn
  kept : ∀ a e, max (point s) lsn ≤ a → Holds s a e → ¬Exempt e →
    Reads s a e ∧ Holds after a e ∧ Reads after a e
  late : lsn ≤ point s → after = s

namespace InMemory

def State.Reads (s : State) (a : Int) (e : RawLogEntry) : Prop := s.readEntry a = .ok (some e)

end InMemory

namespace SafeWrites

/-- `firstLogEntry_LogWriter` -/
def Session.truncationPoint (s : Session) : Int := s.sw.globalOffset + lsnSize

def Session.Holds (s : Session) (a : Int) (e : RawLogEntry) : Prop := e ∈ s.logged ∧ e.LSN = a

def Session.Reads (stale : Int) (s : Session) (a : Int) (e : RawLogEntry) : Prop :=
  ∃ sw, s.sw.readLSNEntry stale a = .ok (sw, some e)

theorem Inv.reads (h : Inv crc32 s) (stale : Int) (held : s.Holds a e) : s.Reads stale a e := by
  obtain ⟨mem, rfl⟩ := held
  exact ⟨_, readLSNEntry_entry h.file h.read mem⟩

end SafeWrites

namespace FilePool

def Pool.truncationPoint (pool : Pool) : Int := (pool.live.head?.map (·.offset)).getD 0

/-- The point is in a live chunk. If there are chunks in front of it, they are written back,
and the worker has no batch that goes on in another chunk. -/
def Pool.Truncatable (pool : Pool) (lsn : Int) : Prop :=
  ∃ i c, getChunkFromOffset pool.live lsn = some i ∧ pool.live[i]? = some c ∧
    (i = 0 ∨ pool.worker.isSplit = false ∧ c.offset ≤ pool.firstUnstableLsn)

section Truncate
variable {pool : Pool}

theorem truncate_zero (found : getChunkFromOffset pool.live lsn = some 0) :
    pool.truncate lsn = .ok pool := by
  rw [Pool.truncate, found]
  simp only [drop_zero, take_zero, map_nil, append_nil]

theorem Reached.truncate (h : Reached crc32 start pool) {after : Pool}
    (safe : pool.Truncatable lsn) (run : pool.truncate lsn = .ok after) :
    Reached crc32 start after := by
  obtain ⟨i, c, found, at_i, first | ⟨whole, stable⟩⟩ := safe
  · subst first
    rw [truncate_zero found] at run
    exact Except.ok.inj run ▸ h
  · have inv := h.inv
    have sorted := inv.chunks.sorted
    have inside : InChunk pool.live i c c.offset :=
      ⟨at_i, le_rfl, fun next hn => sorted.lt at_i hn (Nat.lt_succ_self i)⟩
    have low : ∀ d, pool.live.head? = some d → d.offset ≤ c.offset := by
      intro d head
      rw [head?_eq_getElem?] at head
      exact sorted.le head at_i (Nat.zero_le i)
    obtain ⟨j, d, here, there⟩ := inv.getChunk low (le_trans stable inv.ring.order.1)
    have same := there.unique sorted inside
    subst same
    obtain ⟨first, head, _⟩ := inv.chunks.first
    refine h.step (.truncate c.offset) ⟨whole, ⟨first, head, low first head⟩, stable⟩ ?_
    rw [← run]
    show pool.truncate c.offset = pool.truncate lsn
    rw [Pool.truncate, Pool.truncate, here, found]

end Truncate
end FilePool

end Stasis
