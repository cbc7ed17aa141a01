import Stasis.Logger.FilePool.Steps
import Stasis.Library.Updates

/-!
Where entries go.

The invariants of the file pool that say in which chunk a byte of the log belongs: what
each thread has reserved, which chunks there are, and what the worker is about to write.
Each of them depends on a part of the state only, and is kept by the steps that change
that part.
-/
namespace Stasis.FilePool
open Memory Function Tiling Updates List Option

/-- Each thread has one range of the ring while it writes an entry. -/
structure WritersInv (reserved : List Reservation) (writers : Nat → Option Writer) : Prop where
  writer : ∀ t w, writers t = some w → ∃ r ∈ reserved, r.handle = ⟨t, w.off⟩ ∧
    r.size = w.sz + frameOverhead ∧ r.applied = false ∧ (r.written = true ↔ w.phase = .written)
  owner : ∀ r ∈ reserved, r.applied = false →
    ∃ w, writers r.handle.ptr = some w ∧ w.off = r.off
  order : ∀ r ∈ reserved, r.applied = true → r.written = true

namespace WritersInv

theorem start : WritersInv [] fun _ => none :=
  ⟨fun _ _ h => absurd h (some_ne_none _).symm, fun _ mem => absurd mem not_mem_nil,
    fun _ mem => absurd mem not_mem_nil⟩

section
variable (h : WritersInv reserved writers)
include h

theorem reserve (free : writers t = none) :
    WritersInv (reserved ++ [⟨⟨t, off⟩, sz + frameOverhead, false, false⟩])
      (update writers t (some ⟨off, sz, .placing⟩)) := by
  refine ⟨fun t' w held => ?_, fun r mem out => ?_, fun r mem applied => ?_⟩
  · obtain ⟨rfl, eq⟩ | ⟨_, held⟩ := update_eq_cases held
    · cases eq
      exact ⟨_, mem_append_right _ mem_cons_self, rfl, rfl, rfl, by simp⟩
    · obtain ⟨r, mem, rest⟩ := h.writer t' w held
      exact ⟨r, mem_append_left _ mem, rest⟩
  · cases mem_append.mp mem with
    | inl old =>
      obtain ⟨w, held, eq⟩ := h.owner r old out
      have other : r.handle.ptr ≠ t := fun same =>
        absurd (held.symm.trans (same ▸ free)) (some_ne_none w)
      exact ⟨w, by rw [update_of_ne other]; exact held, eq⟩
    | inr new =>
      rw [mem_singleton.mp new]
      exact ⟨_, update_self .., rfl⟩
  · cases mem_append.mp mem with
    | inl old => exact h.order r old applied
    | inr new =>
      rw [mem_singleton.mp new] at applied
      exact Bool.noConfusion applied

theorem owner_update (cur : writers t = some ⟨off, sz, phase⟩) (mem : r ∈ reserved)
    (out : r.applied = false) :
    ∃ w, update writers t (some ⟨off, sz, phase'⟩) r.handle.ptr = some w ∧ w.off = r.off := by
  obtain ⟨w, held, eq⟩ := h.owner r mem out
  by_cases same : r.handle.ptr = t
  · rw [same, cur] at held
    refine ⟨_, by rw [same]; exact update_self .., ?_⟩
    exact (congrArg Writer.off (some.inj held)).trans eq
  · exact ⟨w, by rw [update_of_ne same]; exact held, eq⟩

theorem setPhase (cur : writers t = some ⟨off, sz, phase⟩) (before : phase ≠ .written)
    (after : phase' ≠ .written) :
    WritersInv reserved (update writers t (some ⟨off, sz, phase'⟩)) := by
  refine ⟨fun t' w held => ?_, fun r mem out => ?_, h.order⟩
  · obtain ⟨rfl, eq⟩ | ⟨_, held⟩ := update_eq_cases held
    · obtain ⟨r, mem, handle, size, applied, written⟩ := h.writer t' _ cur
      cases eq
      exact ⟨r, mem, handle, size, applied,
        iff_of_false (fun w => before (written.mp w)) after⟩
    · exact h.writer t' w held
  · exact h.owner_update cur mem out

theorem setWritten (cur : writers t = some ⟨off, sz, .filling⟩) :
    WritersInv (reserved.map fun r => if r.handle = ⟨t, off⟩ then { r with written := true } else r)
      (update writers t (some ⟨off, sz, .written⟩)) := by
  refine ⟨fun t' w held => ?_, fun r mem out => ?_, fun r mem applied => ?_⟩
  · obtain ⟨rfl, eq⟩ | ⟨same, held⟩ := update_eq_cases held
    · obtain ⟨r, mem, handle, size, applied, _⟩ := h.writer t' _ cur
      cases eq
      refine ⟨_, mem_map_of_mem mem, ?_⟩
      rw [if_pos handle]
      exact ⟨handle, size, applied, by simp⟩
    · obtain ⟨r, mem, handle, rest⟩ := h.writer t' w held
      have other : r.handle ≠ ⟨t, off⟩ := fun eq => same (by rw [handle] at eq; cases eq; rfl)
      refine ⟨_, mem_map_of_mem mem, ?_⟩
      rw [if_neg other]
      exact ⟨handle, rest⟩
  · obtain ⟨r0, mem0, rfl⟩ := mem_map.mp mem
    have kept : (if r0.handle = ⟨t, off⟩ then { r0 with written := true } else r0).handle =
        r0.handle := by split <;> rfl
    have out0 : r0.applied = false := by
      split at out
      · exact out
      · exact out
    rw [Reservation.off, kept]
    exact h.owner_update cur mem0 out0
  · obtain ⟨r0, mem0, rfl⟩ := mem_map.mp mem
    split at applied
    · next eq => rw [if_pos eq]
    · next ne =>
      rw [if_neg ne]
      exact h.order r0 mem0 applied

theorem setDone (cur : writers t = some ⟨off, sz, .written⟩)
    (inj : ∀ r ∈ reserved, ∀ s ∈ reserved, r.handle = s.handle → r = s) :
    WritersInv (reserved.map fun r => if r.handle = ⟨t, off⟩ then { r with applied := true } else r)
      (update writers t none) := by
  refine ⟨fun t' w held => ?_, fun r mem out => ?_, fun r mem applied => ?_⟩
  · obtain ⟨_, held⟩ | ⟨same, held⟩ := update_eq_cases held
    · cases held
    · obtain ⟨r, mem, handle, rest⟩ := h.writer t' w held
      have other : r.handle ≠ ⟨t, off⟩ := fun eq => same (by rw [handle] at eq; cases eq; rfl)
      refine ⟨_, mem_map_of_mem mem, ?_⟩
      rw [if_neg other]
      exact ⟨handle, rest⟩
  · obtain ⟨r0, mem0, rfl⟩ := mem_map.mp mem
    split at out
    · exact absurd out (by simp)
    · next ne =>
      rw [if_neg ne]
      obtain ⟨w, held, eq⟩ := h.owner r0 mem0 out
      have other : r0.handle.ptr ≠ t := fun same => by
        rw [same, cur] at held
        exact ne (Handle.ext same
          (eq.symm.trans (congrArg Writer.off (some.inj held)).symm))
      exact ⟨w, by rw [update_of_ne other]; exact held, eq⟩
  · obtain ⟨r0, mem0, rfl⟩ := mem_map.mp mem
    split at applied
    · next eq =>
      obtain ⟨r1, mem1, handle, _, _, written⟩ := h.writer t _ cur
      rw [if_pos eq, inj r0 mem0 r1 mem1 (eq.trans handle.symm)]
      exact written.mpr rfl
    · next ne =>
      rw [if_neg ne]
      exact h.order r0 mem0 applied

end

end WritersInv

/-- The thread of range `r` has not looked for a chunk yet. -/
def Placing (writers : Nat → Option Writer) (r : Reservation) : Prop :=
  ∃ sz, writers r.handle.ptr = some ⟨r.off, sz, .placing⟩

/-- Chunks are in order, start at entries, and reach behind every range that was placed. -/
structure ChunksInv (start rt : Int) (reserved : List Reservation) (writers : Nat → Option Writer)
    (live : List Chunk) (logged : List (Int × List UInt8)) : Prop where
  sorted : Sorted live
  first : ∃ c, live.head? = some c ∧ c.offset ≤ rt
  last : ∃ c, live.getLast? = some c ∧ start < c.offset + targetChunkSize ∧
    ∀ r ∈ reserved, ¬Placing writers r → r.off + r.size < c.offset + targetChunkSize
  aligned : ∀ c ∈ live, (∃ r ∈ reserved, r.off = c.offset) ∨
    c.offset ≤ start ∧ (c.offset = start ∨ ∃ e ∈ logged, e.1 = c.offset)

namespace ChunksInv

/-- A step that appends no chunk: it may only place ranges that end in front of the end of the
last chunk. -/
theorem keep (h : ChunksInv start rt reserved writers live logged) (up : rt ≤ rt')
    (starts : ∀ r ∈ reserved, ∃ r' ∈ reserved', r'.off = r.off)
    (placed : ∀ r' ∈ reserved', ¬Placing writers' r' →
      (∃ r ∈ reserved, ¬Placing writers r ∧ r'.off = r.off ∧ r'.size = r.size) ∨
        ∀ c, live.getLast? = some c → r'.off + r'.size < c.offset + targetChunkSize)
    (log : ∀ e ∈ logged, e ∈ logged') : ChunksInv start rt' reserved' writers' live logged' := by
  refine ⟨h.sorted, ?_, ?_, fun c mem => ?_⟩
  · obtain ⟨c, head, low⟩ := h.first
    exact ⟨c, head, le_trans low up⟩
  · obtain ⟨c, last, high, below⟩ := h.last
    refine ⟨c, last, high, fun r' mem out => ?_⟩
    cases placed r' mem out with
    | inl old =>
      obtain ⟨r, mem, out, off, size⟩ := old
      rw [off, size]
      exact below r mem out
    | inr new => exact new c last
  · cases h.aligned c mem with
    | inl range =>
      obtain ⟨r, mem, eq⟩ := range
      obtain ⟨r', mem', eq'⟩ := starts r mem
      exact .inl ⟨r', mem', eq'.trans eq⟩
    | inr old => exact .inr ⟨old.1, old.2.imp_right fun ⟨e, mem, eq⟩ => ⟨e, log e mem, eq⟩⟩

theorem sorted_concat (sorted : Sorted live)
    (behind : ∀ c, live.getLast? = some c → c.offset < new.offset) : Sorted (live ++ [new]) := by
  refine pairwise_append.mpr ⟨sorted, pairwise_singleton _ _, fun c mem d hd => ?_⟩
  rw [mem_singleton.mp hd]
  obtain ⟨i, hi⟩ := mem_iff_getElem?.mp mem
  have inside := (List.getElem?_eq_some_iff.mp hi).1
  have last := getElem?_eq_getElem (Nat.sub_lt (Nat.zero_lt_of_lt inside) Nat.zero_lt_one)
  have le := sorted.le hi last (by omega)
  have lt := behind _ (getLast?_eq_getElem?.trans last)
  omega

theorem append (h : ChunksInv start rt reserved writers live logged) (mem : r ∈ reserved)
    (small : r.size < targetChunkSize)
    (full : ∀ c, live.getLast? = some c → c.offset + targetChunkSize ≤ r.off + r.size)
    (placed : ∀ r' ∈ reserved, ¬Placing writers' r' → ¬Placing writers r' ∨ r' = r) :
    ChunksInv start rt reserved writers' (live ++ [⟨r.off, fd⟩]) logged := by
  obtain ⟨c, last, high, below⟩ := h.last
  have reach := full c last
  refine ⟨sorted_concat h.sorted fun c' last' => ?_, ?_, ?_, fun c' mem' => ?_⟩
  · have := full c' last'
    simp only
    omega
  · obtain ⟨c, head, low⟩ := h.first
    exact ⟨c, by rw [head?_append, head, some_or], low⟩
  · refine ⟨⟨r.off, fd⟩, getLast?_concat, by simp only; omega, fun r' mem' out => ?_⟩
    simp only
    cases placed r' mem' out with
    | inl old =>
      have := below r' mem' old
      omega
    | inr same =>
      subst same
      omega
  · cases mem_append.mp mem' with
    | inl old => exact h.aligned c' old
    | inr new =>
      rw [mem_singleton.mp new]
      exact .inl ⟨r, mem, rfl⟩

theorem truncate (h : ChunksInv start rt reserved writers live logged) (at_k : live[k]? = some c)
    (low : c.offset ≤ rt) : ChunksInv start rt reserved writers (live.drop k) logged := by
  have inside := (List.getElem?_eq_some_iff.mp at_k).1
  refine ⟨h.sorted.sublist (drop_sublist k live), ⟨c, ?_, low⟩, ?_, fun c' mem => ?_⟩
  · rw [head?_drop, at_k]
  · obtain ⟨last, eq, rest⟩ := h.last
    refine ⟨last, ?_, rest⟩
    rw [getLast?_drop, if_neg (by omega), eq]
  · exact h.aligned c' (mem_of_mem_drop mem)

end ChunksInv

/-- The worker is at chunk `c` of a batch from `off` up to `rf`, which ends in chunk `e`. -/
structure WritingInv (live : List Chunk) (rf off : Int) (chunks : List Chunk) (c e : Nat)
    (done limit : Int) : Prop where
  chunks : chunks = (live.drop c).take (1 + e - c)
  le : c ≤ e
  inside : e < live.length
  reach : ∀ last, live[e]? = some last → last.offset ≤ rf
  stop : ∀ next, live[e + 1]? = some next → rf ≤ next.offset
  inner : c < e → ∀ next, live[c + 1]? = some next → limit = next.offset - off
  outer : c = e → off + limit = rf
  start : ∀ cur, live[c]? = some cur → cur.offset ≤ off + done
  nonneg : 0 ≤ done
  done : done ≤ limit

namespace WritingInv
variable {chunks : List Chunk} {done : Int}

section
variable (h : WritingInv live rf off chunks c e done limit)
include h

theorem head : ∃ cur rest, chunks = cur :: rest ∧ live[c]? = some cur ∧ (rest = [] ↔ c = e) := by
  have le := h.le
  have inside := h.inside
  have some := getElem?_eq_getElem (lt_of_le_of_lt le inside)
  have split := drop_eq_getElem_cons (lt_of_le_of_lt le inside)
  have count : 1 + e - c = (e - c) + 1 := by omega
  refine ⟨_, (live.drop (c + 1)).take (e - c), ?_, some, ?_⟩
  · rw [h.chunks, split, count, take_succ_cons]
  · rw [take_eq_nil_iff, drop_eq_nil_iff]
    omega

theorem limit_le (sorted : Sorted live) : off + limit ≤ rf := by
  cases Nat.lt_or_eq_of_le h.le with
  | inl lt =>
    have next := getElem?_eq_getElem (lt_of_le_of_lt lt h.inside)
    have last := getElem?_eq_getElem h.inside
    have limit := h.inner lt _ next
    have le := sorted.le next last lt
    have reach := h.reach _ last
    omega
  | inr eq => exact Int.le_of_eq (h.outer eq)

theorem inChunk (sorted : Sorted live) (at_c : live[c]? = some cur) (low : off + done ≤ x)
    (high : x < off + limit) : InChunk live c cur x ∧ x < rf := by
  have start := h.start cur at_c
  refine ⟨⟨at_c, by omega, fun next hn => ?_⟩, lt_of_lt_of_le high (h.limit_le sorted)⟩
  cases Nat.lt_or_eq_of_le h.le with
  | inl lt =>
    have limit := h.inner lt next hn
    omega
  | inr eq =>
    have limit := h.outer eq
    have stop := h.stop next (eq ▸ hn)
    omega

theorem advance (pos : 0 < n) (fits : n ≤ limit - done) :
    WritingInv live rf off chunks c e (done + n) limit :=
  { h with
    start := fun cur at_c => by have := h.start cur at_c; omega
    nonneg := by have := h.nonneg; omega
    done := by omega }

end

theorem next {cur next : Chunk} (h : WritingInv live rf off (cur :: next :: rest) c e done done)
    (sorted : Sorted live) (len_eq : off + len = rf)
    (found : Pool.chunkLimit live off len (c + 1) rest = some limit') :
    live[c + 1]? = some next ∧ next.offset = off + done ∧
      WritingInv live rf off (next :: rest) (c + 1) e done limit' := by
  obtain ⟨cur', rest', eq, at_c, last⟩ := h.head
  rw [List.cons.injEq] at eq
  have lt : c < e := by
    refine Nat.lt_of_le_of_ne h.le fun same => ?_
    exact absurd (eq.2.trans (last.mpr same)) (by simp)
  have inside : c + 1 < live.length := lt_of_le_of_lt lt h.inside
  have taken : next :: rest = (live.drop (c + 1)).take (1 + e - (c + 1)) := by
    have whole := h.chunks
    have split := drop_eq_getElem_cons (lt_of_le_of_lt h.le h.inside)
    have count : 1 + e - c = (1 + e - (c + 1)) + 1 := by omega
    rw [split, count, take_succ_cons, List.cons.injEq] at whole
    exact whole.2
  have at_next : live[c + 1]? = some next := by
    have split := drop_eq_getElem_cons inside
    have count : 1 + e - (c + 1) = (e - (c + 1)) + 1 := by omega
    rw [split, count, take_succ_cons, List.cons.injEq] at taken
    rw [getElem?_eq_getElem inside, taken.1]
  have limit := h.inner lt next at_next
  have last_e := getElem?_eq_getElem h.inside
  have reach := h.reach _ last_e
  have le := sorted.le at_next last_e lt
  have ended : rest = [] ↔ c + 1 = e := by
    have length := congrArg List.length taken
    rw [length_cons, length_take, length_drop] at length
    have := h.inside
    rw [← length_eq_zero_iff]
    omega
  refine ⟨at_next, by omega, {
    chunks := taken
    le := lt
    inside := h.inside
    reach := h.reach
    stop := h.stop
    inner := fun more next' hn => ?_
    outer := fun same => ?_
    start := fun cur' hc => ?_
    nonneg := h.nonneg
    done := ?_ }⟩
  · cases rest with
    | nil => exact absurd (ended.mp rfl) (ne_of_lt more)
    | cons _ _ =>
      rw [Pool.chunkLimit, hn] at found
      exact (some.inj found).symm
  · rw [ended.mpr same, Pool.chunkLimit] at found
    rw [← some.inj found]
    exact len_eq
  · rw [← some.inj (at_next.symm.trans hc)]
    omega
  · cases rest with
    | nil =>
      rw [← some.inj found]
      omega
    | cons _ _ =>
      obtain ⟨far, hf, eq⟩ := map_eq_some_iff.mp found
      have := sorted.lt at_next hf (Nat.lt_succ_self _)
      omega

theorem concat (h : WritingInv live rf off chunks c e done limit) (behind : rf ≤ new.offset) :
    WritingInv (live ++ [new]) rf off chunks c e done limit := by
  have le := h.le
  have inside := h.inside
  have old : ∀ i, i ≤ e → (live ++ [new])[i]? = live[i]? := fun i hi =>
    getElem?_append_left (by omega)
  refine ⟨?_, le, ?_, fun last at_e => h.reach last (old e (Nat.le_refl e) ▸ at_e),
    fun next at_next => ?_, fun lt next at_next => h.inner lt next (old _ lt ▸ at_next), h.outer,
    fun cur at_c => h.start cur (old c le ▸ at_c), h.nonneg, h.done⟩
  · rw [drop_append_of_le_length (by omega), take_append_of_le_length]
    · exact h.chunks
    · rw [length_drop]
      omega
  · rw [length_append]
    omega
  · by_cases more : e + 1 < live.length
    · rw [getElem?_append_left more] at at_next
      exact h.stop next at_next
    · have last : e + 1 = live.length := by omega
      rw [last, getElem?_concat_length] at at_next
      exact some.inj at_next ▸ behind

theorem drop (h : WritingInv live rf off chunks c e done limit) (le : k ≤ c) :
    WritingInv (live.drop k) rf off chunks (c - k) (e - k) done limit := by
  have order := h.le
  have inside := h.inside
  have shift : ∀ i, k ≤ i → (live.drop k)[i - k]? = live[i]? := fun i hi => by
    rw [getElem?_drop, Nat.add_sub_cancel' hi]
  have after : ∀ i, k ≤ i → (live.drop k)[i - k + 1]? = live[i + 1]? := fun i hi => by
    rw [← Nat.sub_add_comm hi]
    exact shift (i + 1) (by omega)
  refine ⟨?_, by omega, by rw [length_drop]; omega, fun last at_e => ?_, fun next at_next => ?_,
    fun lt next at_next => ?_, fun same => h.outer (by omega), fun cur at_c => ?_, h.nonneg, h.done⟩
  · rw [drop_drop, Nat.add_sub_cancel' le, show 1 + (e - k) - (c - k) = 1 + e - c by omega]
    exact h.chunks
  · exact h.reach last (shift e (by omega) ▸ at_e)
  · exact h.stop next (after e (by omega) ▸ at_next)
  · exact h.inner (by omega) next (after c le ▸ at_next)
  · exact h.start cur (shift c le ▸ at_c)

theorem lookup (pos : 0 < len) (len_eq : off + len = rf) (sorted : Sorted live)
    (first : getChunkFromOffset live off = some c)
    (last : getChunkFromOffset live (off + len) = some e)
    (found : Pool.chunkLimit live off len c ((live.drop c).take (1 + e - c)).tail = some limit) :
    WritingInv live rf off ((live.drop c).take (1 + e - c)) c e 0 limit := by
  obtain ⟨a, at_c, low, high⟩ := getChunkFromOffset_inChunk first
  obtain ⟨b, at_e, reach, stop⟩ := getChunkFromOffset_inChunk last
  have le : c ≤ e := InChunk.index_le sorted at_c (by omega) ⟨at_e, reach, stop⟩
  have inside := (List.getElem?_eq_some_iff.mp at_e).1
  have more : ((live.drop c).take (1 + e - c)).tail = [] ↔ c = e := by
    rw [← length_eq_zero_iff, length_tail, length_take, length_drop]
    omega
  have inner : c < e → ∀ next, live[c + 1]? = some next → limit = next.offset - off := by
    intro lt next at_next
    cases rest : ((live.drop c).take (1 + e - c)).tail with
    | nil => exact absurd (more.mp rest) (ne_of_lt lt)
    | cons _ _ =>
      rw [rest, Pool.chunkLimit, at_next] at found
      exact (some.inj found).symm
  have outer : c = e → off + limit = rf := by
    intro same
    rw [more.mpr same, Pool.chunkLimit] at found
    rw [← some.inj found, len_eq]
  refine ⟨rfl, le, inside, fun last at_last => ?_, fun next at_next => ?_, inner, outer,
    fun cur at_cur => ?_, Int.le_refl 0, ?_⟩
  · rw [← some.inj (at_e.symm.trans at_last), ← len_eq]
    exact reach
  · have := stop next at_next
    omega
  · rw [← some.inj (at_c.symm.trans at_cur), Int.add_zero]
    exact low
  · cases Nat.lt_or_eq_of_le le with
    | inl lt =>
      have next := getElem?_eq_getElem (lt_of_le_of_lt lt inside)
      have := inner lt _ next
      have := high _ next
      omega
    | inr eq =>
      omega

end WritingInv

/-- The batch of the worker goes on in another chunk. -/
def Worker.isSplit : Worker → Bool
  | .writing _ _ (_ :: _ :: _) _ _ _ => true
  | _ => false

/-- The batch of the worker. -/
def Worker.batch : Worker → Option (Handle × Int)
  | .idle => none
  | .taken handle len => some (handle, len)
  | .writing handle len _ _ _ _ => some (handle, len)

/-- The bytes in front of this one were written to the chunk files. -/
def Worker.frontier (rf : Int) : Worker → Int
  | .idle => rf
  | .taken handle _ => handle.lsn
  | .writing handle _ _ _ done _ => handle.lsn + done

/-- The worker has the one batch that was returned and is not finished. In the last chunk of
the batch the index of the chunk is not read again, and may be out of date. -/
structure WorkerInv (s : RingSession) (live : List Chunk) (worker : Worker) : Prop where
  reading : ∀ g, s.Reading g ↔ ∃ len, worker.batch = some (g, len)
  batch : ∀ g len, worker.batch = some (g, len) → 0 < len ∧ g.lsn + len = s.ring.rf
  writing : ∀ handle len chunks c done limit,
    worker = .writing handle len chunks c done limit →
      ∃ i e, (chunks.tail ≠ [] → i = c) ∧
        WritingInv live s.ring.rf handle.lsn chunks i e done limit

namespace WorkerInv

theorem congr (h : WorkerInv s live worker) (reading : ∀ g, s'.Reading g ↔ s.Reading g)
    (rf : s'.ring.rf = s.ring.rf) : WorkerInv s' live worker := by
  refine ⟨fun g => (reading g).trans (h.reading g), ?_, ?_⟩
  · rw [rf]
    exact h.batch
  · rw [rf]
    exact h.writing

theorem concat (h : WorkerInv s live worker) (behind : s.ring.rf ≤ new.offset) :
    WorkerInv s (live ++ [new]) worker :=
  ⟨h.reading, h.batch, fun handle len chunks c done limit eq => by
    obtain ⟨i, e, index, writing⟩ := h.writing handle len chunks c done limit eq
    exact ⟨i, e, index, writing.concat behind⟩⟩

/-- The read tail is at the start of the worker's batch. -/
theorem rt_eq (h : WorkerInv s live worker) (v : s.Valid start) :
    s.ring.rt = (worker.batch.map fun b => b.1.lsn).getD s.ring.rf := by
  cases batch : worker.batch with
  | none =>
    refine v.readers.isMark.tight.resolve_right fun ⟨g, reading, _⟩ => ?_
    obtain ⟨_, held⟩ := (h.reading g).mp reading
    cases batch.symm.trans held
  | some b =>
    have ends := h.batch b.1 b.2 batch
    have low := v.readers.isMark.low b.1.lsn ⟨b.1, (h.reading b.1).mpr ⟨b.2, batch⟩, rfl⟩
    obtain same | ⟨g, reading, same⟩ := v.readers.isMark.tight
    · omega
    · obtain ⟨_, held⟩ := (h.reading g).mp reading
      cases batch.symm.trans held
      exact same.symm

theorem drop (h : WorkerInv s live worker) (v : s.Valid start) (sorted : Sorted live)
    (whole : worker.isSplit = false) (at_k : live[k]? = some first) (low : first.offset ≤ s.ring.rt) :
    WorkerInv s (live.drop k) worker := by
  refine ⟨h.reading, h.batch, fun handle len chunks c done limit eq => ?_⟩
  subst eq
  obtain ⟨i, e, _, writing⟩ := h.writing handle len chunks c done limit rfl
  have batch := h.batch handle len rfl
  have tail : s.ring.rt = handle.lsn := h.rt_eq v
  obtain ⟨cur, rest, rfl, _, last⟩ := writing.head
  have single : rest = [] := by
    cases rest with
    | nil => rfl
    | cons _ _ => exact Bool.noConfusion whole
  have same := last.mp single
  -- the chunk of the batch ends behind the read tail
  have le : k ≤ i := by
    by_contra gt
    have next := getElem?_eq_getElem
      (lt_of_le_of_lt (by omega : e + 1 ≤ k) (List.getElem?_eq_some_iff.mp at_k).1)
    have stop := writing.stop _ next
    have order := sorted.le next at_k (by omega)
    omega
  refine ⟨i - k, e - k, fun more => absurd single more, writing.drop le⟩

theorem frontier_bounds (h : WorkerInv s live worker) (v : s.Valid start) (sorted : Sorted live) :
    s.ring.rt ≤ worker.frontier s.ring.rf ∧ worker.frontier s.ring.rf ≤ s.ring.rf := by
  have tail := h.rt_eq v
  cases worker with
  | idle => exact ⟨v.order.1, le_rfl⟩
  | taken handle len =>
    have batch := h.batch handle len rfl
    exact ⟨Int.le_of_eq tail, by rw [Worker.frontier]; omega⟩
  | writing handle len chunks c done limit =>
    obtain ⟨_, e, _, writing⟩ := h.writing _ _ _ _ _ _ rfl
    replace tail : s.ring.rt = handle.lsn := tail
    have nonneg := writing.nonneg
    have inside := writing.done
    have high := writing.limit_le sorted
    rw [Worker.frontier]
    omega

end WorkerInv
end Stasis.FilePool
