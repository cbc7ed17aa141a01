import Stasis.Logger.LogEntry
import Stasis.Library.Runs
import Stasis.Util.Ringbuffer

/-!
The log in memory.

Entries have consecutive numbers, and the pointer to the entry `lsn` is in the array at
`lsn - globalOffset`. A truncation frees the entries in front and moves the other pointers to
the start of the array. A thread that has reserved an entry holds both locks until it has
written it.
-/
namespace Stasis.InMemory

/-- A pointer is what it points to, and `none` if that is no entry. -/
abbrev Buffer := Nat → Option RawLogEntry

structure State where
  nextAvailableLSN : Int
  globalOffset : Int
  buffer : Buffer
  bufferLen : Int
  maxLen : Int
  writer : Option Nat

/-- Pointers behind the ones that are freed stay as they are. -/
def freeFirst (n : Nat) (buffer : Buffer) : Except Stop Buffer :=
  if ∀ i < n, (buffer i).isSome then .ok fun i => if i < n then none else buffer i
  else .error .fails

/-- memmove of `len` pointers from `src` to the start of the array -/
def moveDown (src len : Nat) (buffer : Buffer) : Buffer :=
  fun i => if i < len then buffer (src + i) else buffer i

namespace State

/-- The array that `stasis_log_in_memory_max_entries` asks for. -/
def openLog (maxEntries : Nat) : State where
  nextAvailableLSN := 0
  globalOffset := 0
  buffer := fun _ => none
  bufferLen := if maxEntries = 0 then 4096 * 1024 else maxEntries
  maxLen := if maxEntries = 0 then 0 else maxEntries
  writer := none

/-- The loop of `reserve_entry`, in which the array doubles fewer times than its length has
bits. A thread without room waits for a truncation. -/
def makeRoom : Nat → State → Except Stop State
  | 0, _ => .error .waits
  | turns + 1, s =>
    if s.nextAvailableLSN - s.globalOffset ≥ s.bufferLen then
      if 2 * s.bufferLen > s.maxLen then .error .waits
      else makeRoom turns { s with bufferLen := 2 * s.bufferLen }
    else .ok s

/-- The array gets a pointer to the entry. -/
def put (s : State) (e : RawLogEntry) : State :=
  { s with buffer := Function.update s.buffer (e.LSN - s.globalOffset).toNat (some e) }

def blankEntry (lsn : Int) (sz : Nat) : RawLogEntry :=
  ⟨lsn, 0, 0, 0, List.replicate (sz - RawLogEntry.rawSize) 0⟩

def reserveEntry (s : State) (thread sz : Nat) : Except Stop State :=
  if s.writer.isSome then .error .waits
  else
    match s.makeRoom 64 with
    | .error e => .error e
    | .ok s => .ok { s.put (blankEntry s.nextAvailableLSN sz) with
        nextAvailableLSN := s.nextAvailableLSN + 1
        writer := some thread }

/-- The thread has filled in its entry. -/
def writeEntry (s : State) (thread : Nat) (e : RawLogEntry) : Except Stop State :=
  if s.writer = some thread then
    .ok { s.put { e with LSN := s.nextAvailableLSN - 1 } with writer := none }
  else .error .waits

/-- The loop over the entries has a counter of type int. -/
def truncate (s : State) (lsn : Int) : Except Stop State :=
  if s.writer.isSome then .error .waits
  else if s.nextAvailableLSN < lsn then .error .fails
  else if lsn > s.globalOffset then
    if 2 ^ 31 ≤ lsn then .error .fails
    else
      match freeFirst (lsn - s.globalOffset).toNat s.buffer with
      | .error e => .error e
      | .ok buffer =>
        if (lsn - s.globalOffset) + (s.nextAvailableLSN - lsn) ≤ s.bufferLen then
          .ok { s with
            buffer := moveDown (lsn - s.globalOffset).toNat (s.nextAvailableLSN - lsn).toNat buffer
            globalOffset := lsn }
        else .error .fails
  else .ok s

def truncationPoint (s : State) : Int := s.globalOffset

def readEntry (s : State) (lsn : Int) : Except Stop (Option RawLogEntry) :=
  if s.writer.isSome then .error .waits
  else if lsn ≥ s.nextAvailableLSN then .ok none
  else if lsn - s.globalOffset ≥ 0 ∧ lsn - s.globalOffset < s.bufferLen then
    match s.buffer (lsn - s.globalOffset).toNat with
    | some e => if e.LSN = lsn then .ok (some e) else .error .fails
    | none => .error .fails
  else .ok none

end State

inductive Op where
  | reserve (thread sz : Nat)
  | write (thread : Nat) (e : RawLogEntry)
  | truncate (lsn : Int)
deriving DecidableEq, Repr

def Op.run (s : State) : Op → Except Stop State
  | reserve thread sz => s.reserveEntry thread sz
  | write thread e => s.writeEntry thread e
  | truncate lsn => s.truncate lsn

/-- A truncation ends in the log, and changes it only in front of 2^31. -/
def Op.Allowed (s : State) : Op → Prop
  | truncate lsn => lsn ≤ s.nextAvailableLSN ∧ (lsn ≤ s.globalOffset ∨ lsn < 2 ^ 31)
  | _ => True

instance (s : State) : (op : Op) → Decidable (op.Allowed s)
  | .truncate _ => inferInstanceAs (Decidable (_ ∧ (_ ∨ _)))
  | .reserve _ _ | .write _ _ => isTrue trivial

/-- The states of the log, under any order of the steps of its threads. -/
abbrev Reached (maxEntries : Nat) : State → Prop :=
  Runs.Reached Op.run (fun s (op : Op) => op.Allowed s) (.openLog maxEntries)

/-- The log has the entry `e` at `a`. -/
def State.Holds (s : State) (a : Int) (e : RawLogEntry) : Prop :=
  s.globalOffset ≤ a ∧ a < s.nextAvailableLSN ∧ s.buffer (a - s.globalOffset).toNat = some e

structure Inv (s : State) : Prop where
  order : s.globalOffset ≤ s.nextAvailableLSN
  room : s.nextAvailableLSN - s.globalOffset ≤ s.bufferLen
  full : ∀ a, s.globalOffset ≤ a → a < s.nextAvailableLSN → ∃ e, s.Holds a e
  lsn : ∀ a e, s.Holds a e → e.LSN = a
  writing : s.writer.isSome → s.globalOffset < s.nextAvailableLSN

section Steps
variable {s : State}

theorem makeRoom_ok (h : s.makeRoom turns = .ok after) :
    ∃ len, after = { s with bufferLen := len } ∧ s.nextAvailableLSN - s.globalOffset < len ∧
      (0 ≤ s.bufferLen → s.bufferLen ≤ len) := by
  induction turns generalizing s with
  | zero => cases h
  | succ turns ih =>
    rw [State.makeRoom] at h
    split at h
    · split at h
      · cases h
      · obtain ⟨len, rfl, lt, grows⟩ := ih h
        refine ⟨len, rfl, lt, fun nonneg => ?_⟩
        have grows : 0 ≤ 2 * s.bufferLen → 2 * s.bufferLen ≤ len := grows
        omega
    · next room =>
      cases h
      exact ⟨_, rfl, not_le.mp room, fun _ => le_rfl⟩

theorem reserveEntry_ok (h : s.reserveEntry thread sz = .ok after) :
    s.writer = none ∧ ∃ len, s.nextAvailableLSN - s.globalOffset < len ∧
      (0 ≤ s.bufferLen → s.bufferLen ≤ len) ∧ after = { s.put (State.blankEntry s.nextAvailableLSN sz) with
        nextAvailableLSN := s.nextAvailableLSN + 1
        bufferLen := len
        writer := some thread } := by
  rw [State.reserveEntry] at h
  split at h
  · cases h
  · next free =>
    split at h
    · cases h
    · next room =>
      obtain ⟨len, rfl, lt, grows⟩ := makeRoom_ok room
      cases h
      exact ⟨Option.not_isSome_iff_eq_none.mp free, len, lt, grows, rfl⟩

theorem writeEntry_ok (h : s.writeEntry thread e = .ok after) :
    s.writer = some thread ∧
      after = { s.put { e with LSN := s.nextAvailableLSN - 1 } with writer := none } := by
  rw [State.writeEntry] at h
  split at h
  · next own =>
    cases h
    exact ⟨own, rfl⟩
  · cases h

theorem truncate_ok {lsn : Int} (h : s.truncate lsn = .ok after) :
    s.writer = none ∧ lsn ≤ s.nextAvailableLSN ∧ (lsn ≤ s.globalOffset ∧ after = s ∨
      s.globalOffset < lsn ∧ after.globalOffset = lsn ∧
        after.nextAvailableLSN = s.nextAvailableLSN ∧ after.bufferLen = s.bufferLen ∧
        after.maxLen = s.maxLen ∧ after.writer = none ∧ ∀ i : Nat, i < s.nextAvailableLSN - lsn →
          after.buffer i = s.buffer ((lsn - s.globalOffset).toNat + i)) := by
  rw [State.truncate] at h
  split at h
  · cases h
  · next free =>
    have free := Option.not_isSome_iff_eq_none.mp free
    split at h
    · cases h
    · next inside =>
      refine ⟨free, not_lt.mp inside, ?_⟩
      split at h
      · next above =>
        split at h
        · cases h
        · split at h
          · cases h
          · next freed =>
            rw [freeFirst] at freed
            split at freed <;> cases freed
            split at h
            · cases h
              refine .inr ⟨above, rfl, rfl, rfl, rfl, free, fun i lt => ?_⟩
              exact (if_pos (by omega)).trans (if_neg (by omega))
            · cases h
      · next late =>
        cases h
        exact .inl ⟨not_lt.mp late, rfl⟩

theorem truncate_holds (h : s.truncate lsn = .ok after) :
    after.Holds a e ↔ lsn ≤ a ∧ s.Holds a e := by
  obtain ⟨_, _, late | ⟨above, offset, next, _, _, _, buffer⟩⟩ := truncate_ok h
  · rw [late.2]
    exact ⟨fun held => ⟨le_trans late.1 held.1, held⟩, fun held => held.2⟩
  · rw [State.Holds, State.Holds, offset, next]
    have place : lsn ≤ a → a < s.nextAvailableLSN →
        after.buffer (a - lsn).toNat = s.buffer (a - s.globalOffset).toNat := by
      intro low high
      rw [buffer (a - lsn).toNat (by omega)]
      congr 1
      omega
    refine ⟨fun ⟨low, high, held⟩ => ?_, fun ⟨low, _, high, held⟩ => ?_⟩
    · exact ⟨low, by omega, high, place low high ▸ held⟩
    · exact ⟨low, high, (place low high).trans held⟩

theorem put_buffer (low : s.globalOffset ≤ e.LSN) (place : s.globalOffset ≤ a) :
    (s.put e).buffer (a - s.globalOffset).toNat =
      if a = e.LSN then some e else s.buffer (a - s.globalOffset).toNat := by
  rw [State.put]
  split
  · next same =>
    rw [same]
    exact Function.update_self ..
  · exact Function.update_of_ne (by omega) ..

/-- The entries of the log with a new pointer, to the entry behind the last one or in its
place. -/
theorem put_holds (len : Int) (writer : Option Nat) (low : s.globalOffset ≤ e.LSN)
    (last : next = e.LSN + 1) (place : s.nextAvailableLSN = e.LSN ∨ s.nextAvailableLSN = next) :
    { s.put e with nextAvailableLSN := next, bufferLen := len, writer := writer }.Holds a f ↔
      a = e.LSN ∧ f = e ∨ a < e.LSN ∧ s.Holds a f := by
  refine ⟨fun ⟨lowA, high, held⟩ => ?_, fun held => ?_⟩
  · have lowA : s.globalOffset ≤ a := lowA
    have high : a < next := high
    have held : (s.put e).buffer (a - s.globalOffset).toNat = some f := held
    rw [put_buffer low lowA] at held
    split at held
    · next same => exact .inl ⟨same, (Option.some.inj held).symm⟩
    · exact .inr ⟨by omega, lowA, by omega, held⟩
  · cases held with
    | inl new =>
      obtain ⟨rfl, rfl⟩ := new
      refine ⟨low, show f.LSN < next by omega, ?_⟩
      exact (put_buffer low low).trans (if_pos rfl)
    | inr old =>
      obtain ⟨before, held⟩ := old
      refine ⟨held.1, show a < next by omega, ?_⟩
      exact ((put_buffer low held.1).trans (if_neg (by omega))).trans held.2.2

end Steps

namespace Inv

theorem openLog (maxEntries : Nat) : Inv (.openLog maxEntries) := by
  refine ⟨Int.le_refl 0, ?_, fun a low high => ?_, fun a e held => ?_, fun holds => by cases holds⟩
  · show (0 : Int) - 0 ≤ if maxEntries = 0 then _ else _
    split <;> omega
  · have low : 0 ≤ a := low
    have high : a < 0 := high
    omega
  · cases held.2.2

theorem put (h : Inv s) (low : s.globalOffset ≤ e.LSN) (last : next = e.LSN + 1)
    (place : s.nextAvailableLSN = e.LSN ∨ s.nextAvailableLSN = next)
    (room : next - s.globalOffset ≤ len) :
    Inv { s.put e with nextAvailableLSN := next, bufferLen := len, writer := writer } := by
  have holds := fun a f => put_holds (a := a) (f := f) len writer low last place
  refine ⟨show s.globalOffset ≤ next by omega, room, fun a lowA high => ?_, fun a f held => ?_,
    fun _ => show s.globalOffset < next by omega⟩
  · have high : a < next := high
    by_cases new : a = e.LSN
    · exact ⟨e, (holds a e).mpr (.inl ⟨new, rfl⟩)⟩
    · obtain ⟨f, held⟩ := h.full a lowA (by omega)
      exact ⟨f, (holds a f).mpr (.inr ⟨by omega, held⟩)⟩
  · cases (holds a f).mp held with
    | inl new => rw [new.2, new.1]
    | inr old => exact h.lsn a f old.2

theorem step (h : Inv s) {op : Op} (run : op.run s = .ok after) : Inv after := by
  cases op with
  | reserve thread sz =>
    obtain ⟨_, len, room, _, rfl⟩ := reserveEntry_ok run
    exact h.put h.order rfl (.inl rfl) (by omega)
  | write thread e =>
    obtain ⟨own, rfl⟩ := writeEntry_ok run
    have some := h.writing (by rw [own]; rfl)
    refine h.put (e := { e with LSN := s.nextAvailableLSN - 1 }) ?_ ?_ (.inr rfl) h.room
    · show s.globalOffset ≤ s.nextAvailableLSN - 1
      omega
    · show s.nextAvailableLSN = s.nextAvailableLSN - 1 + 1
      omega
  | truncate lsn =>
    have kept := fun {a e} => truncate_holds run (a := a) (e := e)
    obtain ⟨_, inside, ⟨_, rfl⟩ | ⟨above, offset, next, len, _, free, _⟩⟩ := truncate_ok run
    · exact h
    · have room := h.room
      refine ⟨by omega, by omega, fun a low high => ?_, fun a e held => ?_, fun holds => ?_⟩
      · obtain ⟨e, held⟩ := h.full a (by omega) (by omega)
        exact ⟨e, kept.mpr ⟨by omega, held⟩⟩
      · exact h.lsn a e (kept.mp held).2
      · rw [free] at holds
        cases holds

end Inv

theorem Reached.inv (h : Reached maxEntries s) : Inv s :=
  h.invariant (.openLog maxEntries) fun _ _ _ _ inv _ run => inv.step run

theorem Inv.readEntry (h : Inv s) (free : s.writer = none) (held : s.Holds a e) :
    s.readEntry a = .ok (some e) := by
  have room := h.room
  obtain ⟨low, high, pointer⟩ := held
  rw [State.readEntry, free, if_neg (by decide), if_neg (by omega), if_pos (by omega), pointer]
  exact if_pos (h.lsn a e ⟨low, high, pointer⟩)

theorem Inv.truncate (h : Inv s) (free : s.writer = none) {lsn : Int}
    (allowed : (Op.truncate lsn).Allowed s) : ∃ after, s.truncate lsn = .ok after := by
  rw [State.truncate, free, if_neg (by decide), if_neg (not_lt.mpr allowed.1)]
  split
  · next above =>
    have small := allowed.2.resolve_left (not_le.mpr above)
    have room := h.room
    have inside := allowed.1
    have held : ∀ i < (lsn - s.globalOffset).toNat, (s.buffer i).isSome := by
      intro i lt
      obtain ⟨e, _, _, pointer⟩ := h.full (s.globalOffset + i) (by omega) (by omega)
      have place : (s.globalOffset + i - s.globalOffset).toNat = i := by omega
      rw [place] at pointer
      exact Option.isSome_of_eq_some pointer
    rw [if_neg (not_le.mpr small), freeFirst, if_pos held]
    exact ⟨_, if_pos (by omega)⟩
  · exact ⟨s, rfl⟩

end Stasis.InMemory
