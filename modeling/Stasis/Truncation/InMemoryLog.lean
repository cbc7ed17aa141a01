import Stasis.Truncation
import Stasis.Logger.InMemory

/-!
Truncation of the log in memory.

The log in memory answers INVALID_LSN when it is asked for its first pending entry. That is
less than every other watermark, so every truncation ends in front of the log, whatever the
tables hold, and the log keeps all of its entries. A thread that finds the array full asks for
truncations until it gives up.
-/
namespace Stasis
open TransactionTable TruncationPoint

/-- What is left of stasis_truncation_truncate, at most. -/
def TruncationPoint.rank : TruncationPoint → Nat
  | .returned _ | .truncate _ => 0
  | .rereadPages _ _ _ => 1
  | .flush _ _ _ again => if again then 2 else 4
  | .rereadApplied _ _ again => if again then 3 else 5
  | .reconsider _ _ _ _ => 6
  | .compare _ _ _ _ _ => 7
  | .readFlushed _ _ _ _ => 8
  | .readXid _ _ _ _ i => 9 + 2 * (maxTransactions.toNat - i)
  | .readRecLSN _ _ _ _ i => 10 + 2 * (maxTransactions.toNat - (i + 1))
  | .readPages _ _ => 10 + 2 * maxTransactions.toNat
  | .readApplied _ => 11 + 2 * maxTransactions.toNat

/-- The first pending entry, once it is read, is INVALID_LSN. -/
def TruncationPoint.Sentinel : TruncationPoint → Prop
  | .readPages _ applied | .readXid _ applied _ _ _ | .readRecLSN _ applied _ _ _
  | .readFlushed _ applied _ _ | .compare _ applied _ _ _ | .flush applied _ _ _
  | .rereadPages applied _ _ => applied = invalidLsn
  | .truncate recLsn => recLsn ≤ invalidLsn
  | .returned _ | .readApplied _ | .reconsider _ _ _ _ | .rereadApplied _ _ _ => True

theorem truncationStep_rank (eagain : Bool) (started : 0 ≤ s.truncationPoint)
    (h : pt.Sentinel) (more : 0 < pt.rank) :
    (truncationStep .logToMemory eagain s pt).2.Sentinel ∧
      (truncationStep .logToMemory eagain s pt).2.rank < pt.rank := by
  cases pt with
  | returned ret | truncate recLsn => exact absurd more (lt_irrefl 0)
  | readApplied force => exact ⟨rfl, Nat.lt_succ_self _⟩
  | readPages force applied =>
    exact ⟨h, by simp only [truncationStep, rank]; omega⟩
  | readXid force applied pageRec xactRec i =>
    simp only [truncationStep]
    split
    · next inside =>
      simp only [maxTransactions] at inside
      split
      · exact ⟨h, by simp only [rank, maxTransactions]; omega⟩
      · exact ⟨h, by simp only [rank, maxTransactions]; omega⟩
    · exact ⟨h, by simp only [rank]; omega⟩
  | readRecLSN force applied pageRec xactRec i =>
    exact ⟨h, by simp only [truncationStep, rank]; omega⟩
  | readFlushed force applied pageRec xactRec => exact ⟨h, Nat.lt_succ_self _⟩
  | compare force applied pageRec xactRec flushed =>
    have early : min (min (min pageRec xactRec) flushed) applied ≤ invalidLsn :=
      le_trans (Int.min_le_right _ _) (Int.le_of_eq h)
    simp only [invalidLsn] at early
    simp only [truncationStep]
    split
    · rw [if_neg (by simp only [minIncrementalTruncation]; omega)]
      exact ⟨trivial, Nat.lt_succ_self _⟩
    · exact ⟨trivial, Nat.succ_pos _⟩
  | reconsider force xactRec flushed logTrunc =>
    simp only [truncationStep]
    split
    · exact ⟨trivial, Nat.lt_succ_self _⟩
    · exact ⟨trivial, Nat.succ_pos _⟩
  | rereadApplied xactRec flushed again =>
    cases again with
    | false => exact ⟨rfl, Nat.lt_succ_self _⟩
    | true => exact ⟨rfl, Nat.lt_succ_self _⟩
  | flush applied xactRec flushed again =>
    simp only [truncationStep]
    split
    · next retry =>
      rw [Bool.not_eq_true] at retry
      rw [retry.2]
      exact ⟨trivial, Nat.lt_succ_self _⟩
    · cases again with
      | false => exact ⟨h, (by decide : 1 < 4)⟩
      | true => exact ⟨h, (by decide : 1 < 2)⟩
  | rereadPages applied xactRec flushed =>
    exact ⟨le_trans (Int.min_le_right _ _) (Int.le_of_eq h), Nat.succ_pos _⟩

namespace InMemory

/-- What stasis_truncation_truncate reads. -/
structure System where
  log : State
  tbl : TransactionTable
  dirtyPages : List (Int × Int)

namespace System

/-- The log in memory is stable as soon as it is written. -/
def shared (w : System) : Shared where
  tbl := w.tbl
  nextAvailableLSN := w.log.nextAvailableLSN
  inFlight := []
  firstUnstableLSN := w.log.nextAvailableLSN
  pageLSN := fun _ => invalidLsn
  dirtyPages := w.dirtyPages
  truncationPoint := w.log.truncationPoint

/-- The call from a point on, without steps of other threads in between. Its flush cleans
the dirty pages. -/
def truncationFrom (eagain : Bool) : Nat → System → TruncationPoint → Except Stop (System × Bool)
  | 0, _, _ => .error .waits
  | _ + 1, w, .returned ret => .ok (w, ret)
  | _ + 1, w, .truncate recLsn =>
    match w.log.truncate recLsn with
    | .error e => .error e
    | .ok log => .ok ({ w with log := log }, true)
  | n + 1, w, .flush applied xactRec flushed again =>
    truncationFrom eagain n { w with dirtyPages := [] }
      (truncationStep .logToMemory eagain w.shared (.flush applied xactRec flushed again)).2
  | n + 1, w, pt => truncationFrom eagain n w (truncationStep .logToMemory eagain w.shared pt).2

/-- stasis_truncation_truncate, with a turn for every step it can take. -/
def truncate (w : System) (eagain force : Bool) : Except Stop (System × Bool) :=
  w.truncationFrom eagain (12 + 2 * maxTransactions.toNat) (.readApplied force)

/-- reserve_entry asks for a truncation each time it finds the array full, and gives up the
hundredth time. -/
def reserveEntry (eagain : Bool) (thread sz : Nat) : Nat → System → Except Stop System
  | 0, _ => .error .fails
  | attempts + 1, w =>
    if w.log.writer.isSome then .error .waits
    else
      match w.log.reserveEntry thread sz with
      | .ok log => .ok { w with log := log }
      | .error .fails => .error .fails
      | .error .waits =>
        match w.truncate eagain true with
        | .error e => .error e
        | .ok (w, _) => reserveEntry eagain thread sz attempts w

section Calls
variable {w : System}

theorem truncationFrom_step (eagain : Bool) (n : Nat) (w : System) (more : 0 < pt.rank) :
    ∃ pages, truncationFrom eagain (n + 1) w pt =
      truncationFrom eagain n { w with dirtyPages := pages }
        (truncationStep .logToMemory eagain w.shared pt).2 := by
  cases pt with
  | returned ret | truncate recLsn => exact absurd more (lt_irrefl 0)
  | flush applied xactRec flushed again => exact ⟨[], rfl⟩
  | _ => exact ⟨w.dirtyPages, rfl⟩

theorem truncationFrom_log (pt : TruncationPoint) (idle : w.log.writer = none) (inv : Inv w.log)
    (started : 0 ≤ w.log.globalOffset) (h : pt.Sentinel) (turns : pt.rank < n) :
    ∃ after ret, truncationFrom eagain n w pt = .ok (after, ret) ∧ after.log = w.log := by
  induction n generalizing w pt with
  | zero => exact absurd turns (Nat.not_lt_zero _)
  | succ n ih =>
    by_cases more : 0 < pt.rank
    · obtain ⟨pages, step⟩ := truncationFrom_step eagain n w more
      obtain ⟨sentinel, closer⟩ := truncationStep_rank (s := w.shared) eagain started h more
      rw [step]
      exact ih (w := { w with dirtyPages := pages }) _ idle inv started sentinel (by omega)
    · cases pt with
      | returned ret => exact ⟨w, ret, rfl, rfl⟩
      | truncate recLsn =>
        have h : recLsn ≤ -1 := h
        refine ⟨w, true, ?_, rfl⟩
        have order := inv.order
        rw [truncationFrom, State.truncate, idle, if_neg (by decide), if_neg (by omega),
          if_neg (by omega)]
      | flush applied xactRec flushed again =>
        cases again with
        | false => exact absurd (by decide : 0 < 4) more
        | true => exact absurd (by decide : 0 < 2) more
      | rereadApplied xactRec flushed again =>
        cases again with
        | false => exact absurd (by decide : 0 < 5) more
        | true => exact absurd (by decide : 0 < 3) more
      | _ => exact absurd (by simp only [rank]; omega) more

section
variable (idle : w.log.writer = none) (inv : Inv w.log) (started : 0 ≤ w.log.globalOffset)
include idle inv started

theorem truncate_log (eagain force : Bool) :
    ∃ after ret, w.truncate eagain force = .ok (after, ret) ∧ after.log = w.log :=
  truncationFrom_log (.readApplied force) idle inv started trivial (Nat.lt_succ_self _)

theorem reserveEntry_full (full : w.log.bufferLen ≤ w.log.nextAvailableLSN - w.log.globalOffset)
    (longest : w.log.maxLen < 2 * w.log.bufferLen) (eagain : Bool) (thread sz attempts : Nat) :
    reserveEntry eagain thread sz attempts w = .error .fails := by
  induction attempts generalizing w with
  | zero => rfl
  | succ attempts ih =>
    have blocked : w.log.reserveEntry thread sz = .error .waits := by
      rw [State.reserveEntry, idle, if_neg (by decide), State.makeRoom, if_pos full,
        if_pos longest]
    obtain ⟨after, ret, call, same⟩ := truncate_log idle inv started eagain true
    rw [reserveEntry, idle, if_neg (by decide), blocked]
    simp only [call]
    rw [← same] at idle inv started full longest
    exact ih idle inv started full longest

end

end Calls

end System

/-- The log, and what its threads have written, in their order. -/
structure Recorded where
  log : State
  appended : List RawLogEntry

namespace Recorded

def openLog (maxEntries : Nat) : Recorded := ⟨.openLog maxEntries, []⟩

def run (r : Recorded) (op : Op) : Except Stop Recorded :=
  match op.run r.log with
  | .error e => .error e
  | .ok log =>
    match op with
    | .write _ e => .ok ⟨log, r.appended ++ [e]⟩
    | .reserve _ _ | .truncate _ => .ok ⟨log, r.appended⟩

abbrev Reached (maxEntries : Nat) : Recorded → Prop :=
  Runs.Reached run (fun r op => op.Allowed r.log) (openLog maxEntries)

/-- The pointers are to the entries that were written, each with its place as its number. -/
structure Faithful (r : Recorded) : Prop where
  inv : Inv r.log
  started : 0 ≤ r.log.globalOffset
  array : 0 < r.log.bufferLen
  longest : r.log.maxLen ≤ r.log.bufferLen
  count : r.log.nextAvailableLSN = r.appended.length + if r.log.writer.isSome then 1 else 0
  stored : ∀ a e, r.log.Holds a e → a < r.appended.length →
    ∃ f, r.appended[a.toNat]? = some f ∧ e = { f with LSN := a }

namespace Faithful
variable {r : Recorded}

theorem openLog (maxEntries : Nat) : Faithful (openLog maxEntries) := by
  refine ⟨.openLog maxEntries, Int.le_refl 0, ?_, ?_, rfl, fun a e held => by cases held.2.2⟩
  · show (0 : Int) < if maxEntries = 0 then _ else _
    split <;> omega
  · show (if maxEntries = 0 then 0 else _ : Int) ≤ if maxEntries = 0 then _ else _
    split <;> omega

section
variable (h : Faithful r)
include h

theorem count_idle (idle : r.log.writer = none) : r.log.nextAvailableLSN = r.appended.length := by
  rw [h.count, idle]
  exact Int.add_zero _

variable {log : State}

theorem reserve (ran : r.log.reserveEntry thread sz = .ok log) : Faithful ⟨log, r.appended⟩ := by
  have inv : Inv log := h.inv.step (show (Op.reserve thread sz).run r.log = .ok log from ran)
  obtain ⟨idle, len, room, grows, rfl⟩ := reserveEntry_ok ran
  have order := h.inv.order
  have array := h.array
  have longest := h.longest
  have count := h.count_idle idle
  refine ⟨inv, h.started, show 0 < len by omega, show r.log.maxLen ≤ len by omega, ?_,
    fun a e held old => ?_⟩
  · show r.log.nextAvailableLSN + 1 = r.appended.length + 1
    rw [count]
  · have entry := (put_holds (e := State.blankEntry r.log.nextAvailableLSN sz) len (some thread)
      order rfl (.inl rfl)).mp held
    have old : a < r.appended.length := old
    cases entry with
    | inl new =>
      have same : a = r.log.nextAvailableLSN := new.1
      omega
    | inr before => exact h.stored a e before.2 old

theorem write (ran : r.log.writeEntry thread e = .ok log) : Faithful ⟨log, r.appended ++ [e]⟩ := by
  have inv : Inv log := h.inv.step (show (Op.write thread e).run r.log = .ok log from ran)
  obtain ⟨own, rfl⟩ := writeEntry_ok ran
  have some := h.inv.writing (by rw [own]; rfl)
  have count : r.log.nextAvailableLSN = r.appended.length + 1 := by
    rw [h.count, own]
    rfl
  refine ⟨inv, h.started, h.array, h.longest, ?_, fun a f held _ => ?_⟩
  · show r.log.nextAvailableLSN = (r.appended ++ [e]).length + 0
    rw [List.length_append, List.length_singleton]
    omega
  · have entry := (put_holds (e := { e with LSN := r.log.nextAvailableLSN - 1 })
      r.log.bufferLen none (show r.log.globalOffset ≤ r.log.nextAvailableLSN - 1 by omega)
      (show r.log.nextAvailableLSN = r.log.nextAvailableLSN - 1 + 1 by omega) (.inr rfl)).mp held
    cases entry with
    | inl new =>
      obtain ⟨place, rfl⟩ := new
      have place : a = r.log.nextAvailableLSN - 1 := place
      refine ⟨e, ?_, by rw [place]⟩
      show (r.appended ++ [e])[a.toNat]? = _
      rw [List.getElem?_append_right (by omega), show a.toNat - r.appended.length = 0 by omega]
      rfl
    | inr old =>
      have before : a < r.log.nextAvailableLSN - 1 := old.1
      have low := old.2.1
      have started := h.started
      obtain ⟨g, entry, same⟩ := h.stored a f old.2 (by omega)
      refine ⟨g, ?_, same⟩
      show (r.appended ++ [e])[a.toNat]? = _
      rw [List.getElem?_append_left (by omega), entry]

theorem truncate (ran : r.log.truncate lsn = .ok log) : Faithful ⟨log, r.appended⟩ := by
  have inv : Inv log := h.inv.step (show (Op.truncate lsn).run r.log = .ok log from ran)
  have kept := fun {a e} => truncate_holds ran (a := a) (e := e)
  obtain ⟨idle, _, ⟨_, rfl⟩ | ⟨above, offset, next, len, max, free, _⟩⟩ := truncate_ok ran
  · exact h
  · have started := h.started
    refine ⟨inv, by simp only; omega, len ▸ h.array, ?_, ?_, fun a e held old => ?_⟩
    · show log.maxLen ≤ log.bufferLen
      rw [max, len]
      exact h.longest
    · show log.nextAvailableLSN = r.appended.length + if log.writer.isSome then 1 else 0
      rw [next, free, h.count, idle]
    · exact h.stored a e (kept.mp held).2 old

theorem step (ran : r.run op = .ok after) : Faithful after := by
  rw [run] at ran
  split at ran
  · cases ran
  · next log moved =>
    cases op with
    | write thread e =>
      cases ran
      exact h.write moved
    | reserve thread sz =>
      cases ran
      exact h.reserve moved
    | truncate lsn =>
      cases ran
      exact h.truncate moved

theorem read (idle : r.log.writer = none) (low : r.log.truncationPoint ≤ lsn)
    (high : lsn < r.log.nextAvailableLSN) :
    ∃ e, r.appended[lsn.toNat]? = some e ∧
      r.log.readEntry lsn = .ok (some { e with LSN := lsn }) := by
  obtain ⟨e, held⟩ := h.inv.full lsn low high
  obtain ⟨f, written, rfl⟩ := h.stored lsn e held (h.count_idle idle ▸ high)
  exact ⟨f, written, h.inv.readEntry idle held⟩

end

end Faithful

theorem Reached.faithful (h : Reached maxEntries r) : Faithful r :=
  h.invariant (.openLog maxEntries) fun _ _ _ _ inv _ ran => inv.step ran

end Recorded

/-- A call for a truncation ends at the next available LSN only if the log was empty before.
Each entry of the log is read as it was written, and nothing else is read. -/
theorem bounded_log_truncation {maxEntries : Nat} {w : System} {appended : List RawLogEntry}
    (h : Recorded.Reached maxEntries ⟨w.log, appended⟩) (idle : w.log.writer = none)
    (eagain : Bool) :
    (∃ after ret, w.truncate eagain true = .ok (after, ret) ∧
      (after.log.truncationPoint = after.log.nextAvailableLSN ↔
        w.log.truncationPoint = w.log.nextAvailableLSN) ∧
      (w.log.truncationPoint = w.log.nextAvailableLSN → ∀ thread sz,
        ∃ next, after.log.reserveEntry thread sz = .ok next)) ∧
    ∀ lsn, (w.log.truncationPoint ≤ lsn ∧ lsn < w.log.nextAvailableLSN →
        ∃ e, appended[lsn.toNat]? = some e ∧
          w.log.readEntry lsn = .ok (some { e with LSN := lsn })) ∧
      (¬ (w.log.truncationPoint ≤ lsn ∧ lsn < w.log.nextAvailableLSN) →
        w.log.readEntry lsn = .ok none) := by
  have faithful := h.faithful
  refine ⟨?_, fun lsn => ⟨fun inside => ?_, fun outside => ?_⟩⟩
  · obtain ⟨after, ret, call, same⟩ :=
      System.truncate_log idle faithful.inv faithful.started eagain true
    refine ⟨after, ret, call, by rw [same], fun empty thread sz => ?_⟩
    have array : 0 < w.log.bufferLen := faithful.array
    have empty : w.log.globalOffset = w.log.nextAvailableLSN := empty
    rw [same, State.reserveEntry, idle, if_neg (by decide), State.makeRoom, if_neg (by omega)]
    exact ⟨_, rfl⟩
  · exact faithful.read idle inside.1 inside.2
  · rw [State.readEntry, idle, if_neg (by decide)]
    split
    · rfl
    · next high =>
      have low : ¬ w.log.globalOffset ≤ lsn := fun low => outside ⟨low, not_le.mp high⟩
      rw [if_neg (by omega)]

/-- The steps of a thread that appends a commit entry. -/
def commitOps : List Op := [.reserve 1 24, .write 1 ⟨0, -1, 1, RawLogEntry.xcommit, []⟩]

/-- The log with one entry, and the log whose entry was truncated. -/
theorem bounded_log_truncation_entry :
    (∃ (w : System) (e : RawLogEntry), w.log.truncationPoint = 0 ∧
      w.log.readEntry 0 = .ok (some { e with LSN := 0 })) ∧
    ∃ (w after : System) (ret : Bool), w.log.nextAvailableLSN = 1 ∧
      w.truncate false true = .ok (after, ret) ∧
      after.log.truncationPoint = after.log.nextAvailableLSN := by
  constructor
  · obtain ⟨r, reached, next, offset, idle⟩ : ∃ r, Recorded.Reached 1 r ∧
        r.log.nextAvailableLSN = 1 ∧ r.log.truncationPoint = 0 ∧ r.log.writer = none :=
      Runs.Reached.of_steps commitOps (by decide +kernel)
    obtain ⟨_, reads⟩ :=
      bounded_log_truncation (w := ⟨r.log, init, []⟩) reached idle false
    obtain ⟨e, _, read⟩ := (reads 0).1 ⟨Int.le_of_eq offset, by simp only [next]; decide⟩
    exact ⟨⟨r.log, init, []⟩, e, offset, read⟩
  · obtain ⟨r, reached, next, offset, idle⟩ : ∃ r, Recorded.Reached 1 r ∧
        r.log.nextAvailableLSN = 1 ∧ r.log.truncationPoint = 1 ∧ r.log.writer = none :=
      Runs.Reached.of_steps (commitOps ++ [.truncate 1]) (by decide +kernel)
    obtain ⟨⟨after, ret, call, ends, _⟩, _⟩ :=
      bounded_log_truncation (w := ⟨r.log, init, []⟩) reached idle false
    exact ⟨_, after, ret, next, call, ends.mpr (offset.trans next.symm)⟩

/-- The log is full, and no call empties it: the next thread gives up. -/
theorem full_log_not_emptied :
    ∃ (w : System) (appended : List RawLogEntry), Recorded.Reached 1 ⟨w.log, appended⟩ ∧
      w.log.writer = none ∧ (∀ i, (w.tbl i).xid < 0) ∧ w.dirtyPages = [] ∧
      (∃ after ret, w.truncate false true = .ok (after, ret) ∧
        after.log.truncationPoint ≠ after.log.nextAvailableLSN) ∧
      System.reserveEntry false 1 24 100 w = .error .fails := by
  obtain ⟨r, reached, next, offset, idle, len⟩ : ∃ r, Recorded.Reached 1 r ∧
      r.log.nextAvailableLSN = 1 ∧ r.log.truncationPoint = 0 ∧ r.log.writer = none ∧
        r.log.bufferLen = 1 := Runs.Reached.of_steps commitOps (by decide +kernel)
  have faithful := Recorded.Reached.faithful reached
  have started : 0 ≤ r.log.globalOffset := Int.le_of_eq offset.symm
  have offset : r.log.globalOffset = 0 := offset
  refine ⟨⟨r.log, init, []⟩, r.appended, reached, idle,
    fun i => (by decide : invalidXtableXid < 0), rfl, ?_, ?_⟩
  · obtain ⟨after, ret, call, same⟩ := System.truncate_log
      (w := ⟨r.log, init, []⟩) idle faithful.inv started false true
    refine ⟨after, ret, call, ?_⟩
    rw [same]
    show r.log.globalOffset ≠ r.log.nextAvailableLSN
    omega
  · refine System.reserveEntry_full idle faithful.inv started ?_ ?_ false 1 24 100
    · show r.log.bufferLen ≤ r.log.nextAvailableLSN - r.log.globalOffset
      omega
    · have longest := faithful.longest
      show r.log.maxLen < 2 * r.log.bufferLen
      omega

end InMemory
end Stasis
