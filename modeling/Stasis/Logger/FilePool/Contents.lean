import Stasis.Logger.FilePool.Placement
import Mathlib.Data.List.Nodup

/-!
What the files and the ring hold.

Bytes in front of the frontier of the worker are in the file of their chunk, bytes of
written entries that may still be read are in the ring, and written entries are framed in
the image of the log. As for the placement, each invariant depends on a part of the state.
-/
namespace Stasis.FilePool
open Memory Function Tiling List Ringbuffer Option

/-- Each chunk has a file of its own, and dead files are not in use. -/
structure FilesInv (live : List Chunk) (dead : List Nat) (nextFile : Nat) : Prop where
  nodup : (live.map (·.fd) ++ dead).Nodup
  below : ∀ fd ∈ live.map (·.fd) ++ dead, fd < nextFile

namespace FilesInv

section
variable (h : FilesInv live dead nextFile)
include h

theorem inj {i j : Nat} (hi : live[i]? = some c)
    (hj : live[j]? = some d) (same : c.fd = d.fd) : i = j := by
  have nodup := (nodup_append.mp h.nodup).1
  have di : (live.map (·.fd))[i]? = some d.fd := by rw [getElem?_map, hi, ← same]; rfl
  have dj : (live.map (·.fd))[j]? = some d.fd := by rw [getElem?_map, hj]; rfl
  obtain ⟨inside, _⟩ := List.getElem?_eq_some_iff.mp di
  exact (getElem?_inj inside nodup).mp (di.trans dj.symm)

theorem recycle (last : dead.getLast? = some fd) (offset : Int) :
    FilesInv (live ++ [⟨offset, fd⟩]) dead.dropLast nextFile := by
  have split : dead = dead.dropLast ++ [fd] := (dropLast_append_getLast? fd last).symm
  have perm : ((live ++ [Chunk.mk offset fd]).map (·.fd) ++ dead.dropLast).Perm
      (live.map (·.fd) ++ dead) := by
    rw [map_append, append_assoc]
    conv => rhs; rw [split]
    exact List.Perm.append_left _ perm_append_comm
  exact ⟨perm.nodup_iff.mpr h.nodup, fun fd' mem => h.below fd' (perm.mem_iff.mp mem)⟩

theorem truncate (k : Nat) :
    FilesInv (live.drop k) (dead ++ (live.take k).map (·.fd)) nextFile := by
  have perm : ((live.drop k).map (·.fd) ++ (dead ++ (live.take k).map (·.fd))).Perm
      (live.map (·.fd) ++ dead) := by
    conv => rhs; rw [← take_append_drop k live, map_append]
    refine (perm_append_comm_assoc _ _ _).trans ?_
    exact perm_append_comm.trans (List.Perm.append_right _ perm_append_comm)
  exact ⟨perm.nodup_iff.mpr h.nodup, fun fd mem => h.below fd (perm.mem_iff.mp mem)⟩

theorem prealloc : FilesInv live (dead ++ [nextFile]) (nextFile + 1) := by
  refine ⟨?_, fun fd mem => ?_⟩
  · rw [← append_assoc]
    refine nodup_append.mpr ⟨h.nodup, nodup_singleton _, fun fd mem fd' mem' => ?_⟩
    rw [mem_singleton.mp mem']
    exact ne_of_lt (h.below fd mem)
  · rw [← append_assoc] at mem
    cases mem_append.mp mem with
    | inl old => exact Nat.lt_succ_of_lt (h.below fd old)
    | inr new => exact mem_singleton.mp new ▸ Nat.lt_succ_self _

end

theorem create (h : FilesInv live [] nextFile) (offset : Int) :
    FilesInv (live ++ [⟨offset, nextFile⟩]) [] (nextFile + 1) :=
  h.prealloc.recycle rfl offset

end FilesInv

/-- The bytes in front of `stop` are in the files of their chunks. -/
def Stored (live : List Chunk) (files : Nat → File) (image : Bytes) (stop : Int) : Prop :=
  ∀ x, x < stop → ∀ i c, InChunk live i c x →
    x - c.offset < (files c.fd).len ∧ (files c.fd).byte (x - c.offset) = image x

namespace Stored
variable (h : Stored live files image stop)
include h

theorem concat (behind : stop ≤ new.offset) : Stored (live ++ [new]) files image stop :=
  fun x below i c inside => h x below i c (inside.of_concat (lt_of_lt_of_le below behind))

theorem truncate (k : Nat) : Stored (live.drop k) files image stop :=
  fun x below i c inside => h x below (k + i) c (inChunk_drop.mp inside)

/-- A write to the file of chunk `i` from `stop` on extends what is stored by the bytes that it
takes from the image. -/
theorem write {dead : List Nat} (distinct : FilesInv live dead nextFile) (sorted : Sorted live)
    (at_i : live[i]? = some c) (most : stop' ≤ stop + n)
    (bytes : ∀ x, stop ≤ x → x < stop' → InChunk live i c x ∧ src (s + (x - stop)) = image x) :
    Stored live (update files c.fd ((files c.fd).write (stop - c.offset) src s n)) image stop' := by
  intro x below j d inside
  by_cases old : x < stop
  · have stored := h x old j d inside
    by_cases same : d.fd = c.fd
    · have index := distinct.inj inside.1 at_i same
      subst index
      have eq := some.inj (inside.1.symm.trans at_i)
      subst eq
      rw [update_self, File.write]
      simp only
      rw [copy_of_outside _ _ (.inl (by omega))]
      exact ⟨lt_of_lt_of_le stored.1 (Int.le_max_left _ _), stored.2⟩
    · rw [update_of_ne same]
      exact stored
  · obtain ⟨here, eq⟩ := bytes x (not_lt.mp old) below
    have index := inside.unique sorted here
    subst index
    have same := some.inj (inside.1.symm.trans at_i)
    subst same
    have shift : s + (x - d.offset - (stop - d.offset)) = s + (x - stop) := by omega
    rw [update_self, File.write]
    simp only
    rw [copy_of_inside _ _ (by omega) (by omega), shift]
    have := Int.le_max_right (files d.fd).len (stop - d.offset + n)
    exact ⟨by omega, eq⟩

end Stored

section Ring
variable {x : Int}

theorem masked_ptrOff_sub (ring : Ringbuffer) (x off : Int) :
    ring.masked (ring.ptrOff x - off) = (x - off) % (ring.mask + 1) := by
  rw [masked, ptrOff, masked, Int.emod_sub_emod]

theorem storeRing_of_inside (low : off ≤ x) (high : x < off + l.length)
    (fits : (l.length : Int) ≤ ring.mask + 1) :
    Pool.storeRing ring mem off l (ring.ptrOff x) = storeList image off l x := by
  have inside : (x - off).toNat < l.length := by omega
  rw [Pool.storeRing, storeList, masked_ptrOff_sub, Int.emod_eq_of_lt (by omega) (by omega),
    if_pos low, getElem?_eq_getElem inside, getD_some, getD_some]

theorem storeRing_of_outside
    (outside : x < off ∧ off + l.length ≤ x + (ring.mask + 1) ∧ off - x ≤ ring.mask + 1 ∨
      off + l.length ≤ x ∧ x < off + (ring.mask + 1)) :
    Pool.storeRing ring mem off l (ring.ptrOff x) = mem (ring.ptrOff x) := by
  have far : (l.length : Int) ≤ (x - off) % (ring.mask + 1) := by
    cases outside with
    | inl before =>
      rw [← Int.add_emod_right, Int.emod_eq_of_lt (by omega) (by omega)]
      omega
    | inr behind =>
      rw [Int.emod_eq_of_lt (by omega) (by omega)]
      omega
  rw [Pool.storeRing, masked_ptrOff_sub, getElem?_eq_none (by omega), getD_none]

end Ring

/-- The ring holds the written bytes that it may not give up yet. -/
def MemInv (s : RingSession) (mem image : Bytes) : Prop :=
  ∀ r ∈ s.reserved, r.written = true → ∀ x, r.off ≤ x → x < r.off + r.size →
    s.ring.effectiveRt ≤ x → mem (s.ring.ptrOff x) = image x

namespace MemInv

theorem keep (h : MemInv s mem image) (mask : s'.ring.mask = s.ring.mask)
    (up : s.ring.effectiveRt ≤ s'.ring.effectiveRt)
    (ranges : ∀ r' ∈ s'.reserved, r'.written = true →
      ∃ r ∈ s.reserved, r.written = true ∧ r'.off = r.off ∧ r'.size = r.size) :
    MemInv s' mem image := by
  intro r' mem' written x low high window
  obtain ⟨r, mem, written, off, size⟩ := ranges r' mem' written
  have place : s'.ring.ptrOff x = s.ring.ptrOff x := by
    rw [ptrOff, ptrOff, masked, masked, mask]
  rw [place]
  exact h r mem written x (off ▸ low) (off ▸ size ▸ high) (le_trans up window)

theorem store (h : MemInv s mem image) (v : s.Valid start) (held : r ∈ s.reserved)
    (applying : r.applied = false) (length : (l.length : Int) = r.size)
    (window : s.ring.effectiveRt ≤ x) (held' : r' ∈ s.reserved) (low : r'.off ≤ x)
    (high : x < r'.off + r'.size) (either : r'.written = true ∨ r' = r) :
    Pool.storeRing s.ring mem r.off l (s.ring.ptrOff x) = storeList image r.off l x := by
  have bounds := v.reserved.bounds held
  have bounds' := v.reserved.bounds held'
  have mark := v.appliers.isMark.low r.off ⟨r.handle, ⟨r, held, rfl, applying⟩, rfl⟩
  have effective := (effectiveRt_le s.ring).2
  have room := v.room
  by_cases own : r.off ≤ x ∧ x < r.off + r.size
  · exact storeRing_of_inside own.1 (by omega) (by omega)
  · have other : r'.written = true := either.resolve_right fun same => own (same ▸ ⟨low, high⟩)
    rw [storeRing_of_outside (by omega), storeList_of_outside _ (by omega)]
    exact h r' held' other x low high window

end MemInv

theorem length_frame (crc32 : List UInt8 → UInt32) (entry : List UInt8) :
    (frame crc32 entry).length = frameOverhead + entry.length := by
  rw [frame, length_append, length_append, LittleEndian.length_encode,
    LittleEndian.length_encode]
  rfl

/-- Entries that were written are framed in the image, those of earlier sessions in front of
`start`. -/
structure LoggedInv (crc32 : List UInt8 → UInt32) (start : Int) (reserved : List Reservation)
    (image : Bytes) (logged : List (Int × List UInt8)) : Prop where
  framed : ∀ e ∈ logged, loadList image e.1 (frame crc32 e.2).length = frame crc32 e.2
  sized : ∀ e ∈ logged, 8 ≤ e.2.length ∧ e.2.length < 2 ^ 32 ∧ lsnOf e.2 = e.1
  place : ∀ e ∈ logged, e.1 + frameOverhead + e.2.length ≤ start ∨
    ∃ r ∈ reserved, r.written = true ∧ r.off = e.1 ∧ r.size = e.2.length + frameOverhead
  complete : ∀ r ∈ reserved, r.written = true →
    ∃ e ∈ logged, e.1 = r.off ∧ r.size = e.2.length + frameOverhead
  apart : ∀ e ∈ logged, ∀ e' ∈ logged, e.1 < e'.1 → e.1 + frameOverhead + e.2.length ≤ e'.1

namespace LoggedInv

theorem keep (h : LoggedInv crc32 start reserved image logged)
    (old : ∀ r ∈ reserved, r.written = true →
      ∃ r' ∈ reserved', r'.written = true ∧ r'.off = r.off ∧ r'.size = r.size)
    (new : ∀ r' ∈ reserved', r'.written = true →
      ∃ r ∈ reserved, r.written = true ∧ r'.off = r.off ∧ r'.size = r.size) :
    LoggedInv crc32 start reserved' image logged := by
  refine ⟨h.framed, h.sized, fun e mem => ?_, fun r' mem written => ?_, h.apart⟩
  · refine (h.place e mem).imp_right fun ⟨r, held, written, off, size⟩ => ?_
    obtain ⟨r', held', written', off', size'⟩ := old r held written
    exact ⟨r', held', written', off'.trans off, size'.trans size⟩
  · obtain ⟨r, held, written, off, size⟩ := new r' mem written
    obtain ⟨e, mem, eq, length⟩ := h.complete r held written
    exact ⟨e, mem, eq.trans off.symm, size.trans length⟩

theorem apart_range (h : LoggedInv crc32 start reserved image logged)
    (tiles : Tiles Reservation.off Reservation.size start reserved b) (mem : e ∈ logged)
    (held : r ∈ reserved) (other : r.written = true → r.off ≠ e.1) :
    e.1 + frameOverhead + e.2.length ≤ r.off ∨ r.off + r.size ≤ e.1 := by
  have bounds := tiles.bounds held
  cases h.place e mem with
  | inl old => exact .inl (le_trans old bounds.1)
  | inr new =>
    obtain ⟨r0, held0, written, off, size⟩ := new
    have apart := tiles.apart held0 held fun same => other (same ▸ written) (same ▸ off)
    omega

theorem write {s : RingSession} (h : LoggedInv crc32 start s.reserved image logged)
    (v : s.Valid start) (held : r ∈ s.reserved) (writing : r.written = false)
    (size : r.size = entry.length + frameOverhead)
    (sized : 8 ≤ entry.length ∧ entry.length < 2 ^ 32 ∧ lsnOf entry = r.off) :
    LoggedInv crc32 start (s.markWritten r.handle) (storeList image r.off (frame crc32 entry))
      (logged ++ [(r.off, entry)]) := by
  have tiles := v.reserved
  have unwritten : ∀ {e : Int × List UInt8}, r.written = true → r.off ≠ e.1 := fun written =>
    absurd (writing.symm.trans written) Bool.false_ne_true
  have apart : ∀ e ∈ logged,
      e.1 + frameOverhead + e.2.length ≤ r.off ∨ r.off + r.size ≤ e.1 :=
    fun e mem => h.apart_range tiles mem held unwritten
  have own : ∃ r' ∈ s.markWritten r.handle,
      r'.written = true ∧ r'.off = r.off ∧ r'.size = r.size :=
    ⟨_, mem_map_of_mem held, by rw [if_pos rfl]; exact ⟨rfl, rfl, rfl⟩⟩
  refine ⟨fun e mem => ?_, fun e mem => ?_, fun e mem => ?_, fun r' mem written => ?_,
    fun e mem e' mem' lt => ?_⟩
  · cases mem_append.mp mem with
    | inl old =>
      have outside := apart e old
      have length := length_frame crc32 e.2
      conv => rhs; rw [← h.framed e old]
      refine loadList_congr fun j inside => storeList_of_outside _ ?_
      rw [length_frame]
      omega
    | inr new =>
      rw [mem_singleton.mp new]
      exact loadList_storeList image r.off (frame crc32 entry)
  · cases mem_append.mp mem with
    | inl old => exact h.sized e old
    | inr new =>
      rw [mem_singleton.mp new]
      exact sized
  · cases mem_append.mp mem with
    | inl old =>
      refine (h.place e old).imp_right fun ⟨r0, held0, written, rest⟩ => ?_
      refine ⟨_, mem_map_of_mem held0, ?_⟩
      split
      · exact ⟨rfl, rest⟩
      · exact ⟨written, rest⟩
    | inr new =>
      obtain ⟨r', mem', written, off, size'⟩ := own
      rw [mem_singleton.mp new]
      exact .inr ⟨r', mem', written, off, size'.trans size⟩
  · obtain ⟨r0, held0, rfl⟩ := mem_map.mp mem
    split
    · next same =>
      refine ⟨(r.off, entry), mem_append_right _ mem_cons_self, ?_, ?_⟩
      · exact congrArg Handle.lsn same.symm
      · rw [tiles.start_inj held0 held (congrArg Handle.lsn same)]
        exact size
    · next other =>
      rw [if_neg other] at written
      obtain ⟨e, mem, rest⟩ := h.complete r0 held0 written
      exact ⟨e, mem_append_left _ mem, rest⟩
  · cases mem_append.mp mem with
    | inl old =>
      cases mem_append.mp mem' with
      | inl old' => exact h.apart e old e' old' lt
      | inr new' =>
        have := apart e old
        have pos := (tiles.bounds held).2.1
        rw [mem_singleton.mp new'] at lt ⊢
        simp only at lt ⊢
        omega
    | inr new =>
      cases mem_append.mp mem' with
      | inl old' =>
        have := apart e' old'
        rw [mem_singleton.mp new] at lt ⊢
        simp only at lt ⊢
        omega
      | inr new' =>
        rw [mem_singleton.mp new, mem_singleton.mp new'] at lt
        exact absurd lt (lt_irrefl _)

end LoggedInv
end Stasis.FilePool
