import Stasis.Logger.SafeWrites.Progress

/-!
Commits over the safe writes log.

A commit writes its record, and unless it is soft it forces the log up to the record. Forces
for commits go through the group force, which lets a thread wait for another one to force
its record too. `TforceCommits` forces the log up to where it ends. Each thread that commits
is a client of the log, under the address of its record; the other threads may write and
force what they like. `softCommits` is no part of the program: it records the soft commits
that have returned.
-/
namespace Stasis.GroupForce
open SafeWrites Fallible Function
export SafeWrites (Session)

def invalidLsn : Int := -1

/-- A call of `Tcommit`, with the number of its record, or of `TforceCommits`, with the soft
commits that had returned when it was called. -/
inductive Call where
  | tcommit (lsn : Int)
  | tforceCommits (soft : List Int)
deriving DecidableEq, Repr

/-- The records that the call is to make stable. -/
def Call.records : Call → List Int
  | tcommit lsn => [lsn]
  | tforceCommits soft => soft

/-- Where a client is: in `stasis_log_write_common`, and then in `stasis_log_group_force` with
the number that is forced. -/
inductive Client where
  | other
  | begun (force : Bool)
  | reserved (force : Bool)
  | written (force : Bool) (lsn : Int)
  | lock (call : Call) (lsn : Int)
  | readUnstable (call : Call) (lsn : Int)
  | readNext (call : Call) (lsn firstUnstable : Int)
  | choose (call : Call) (lsn : Int)
  | wait (call : Call) (lsn : Int)
  | check (call : Call) (lsn : Int)
  | tail (call : Call) (lsn : Int)
  | forcing (call : Call) (lsn : Int)
  | checked (call : Call) (lsn : Int)
  | returned (call : Call)
deriving DecidableEq, Repr

/-- `stasis_log_group_force_should_wait`. The second test is rounded in the source. -/
def shouldWait (xactcount pendingCommits : Int) : Bool :=
  (xactcount > 1 ∧ pendingCommits < xactcount) ∨
    (xactcount > 20 ∧ pendingCommits < xactcount * 95 / 100)

structure Commits where
  log : Session
  checkCommit : Option Nat
  pendingCommits : Int
  clients : Nat → Client
  softCommits : List Int

inductive Move where
  | log (op : Op)
  | commit (ptr : Nat) (force : Bool)
  | forceCommits (ptr : Nat)
  | reserve (ptr thread : Nat)
  | write (ptr : Nat) (prevLSN xid : Int)
  | done (ptr : Nat)
  | lock (ptr : Nat)
  | readUnstable (ptr : Nat)
  | readNext (ptr : Nat)
  | choose (ptr : Nat) (xactcount : Int)
  | wake (ptr : Nat)
  | timeout (ptr : Nat)
  | check (ptr : Nat)
  | forceTail (ptr thread : Nat)
  | force (ptr : Nat)
  | finish (ptr : Nat)
deriving DecidableEq, Repr

namespace Commits
variable (crc32 : List UInt8 → UInt32 → UInt32)

def setClient (s : Commits) (ptr : Nat) (c : Client) : Commits :=
  { s with clients := update s.clients ptr c }

def runLog (s : Commits) (op : Op) (ptr : Nat) (c : Session → Client) : Except Stop Commits := do
  let log ← op.run crc32 s.log
  .ok ({ s with log := log }.setClient ptr (c log))

/-- The client takes the mutex of the group force. -/
def acquire (s : Commits) (ptr : Nat) : Except Stop Commits :=
  if s.checkCommit = none then .ok { s with checkCommit := some ptr } else .error .waits

def firstUnstable (s : Commits) : Int := s.log.sw.flushedLSN .commit

end Commits

open Commits in
def Move.run (crc32 : List UInt8 → UInt32 → UInt32) (s : Commits) : Move → Except Stop Commits
  | log op => do
      let log ← op.run crc32 s.log
      .ok { s with log := log }
  | commit ptr hard =>
    if s.clients ptr = .other ∧ s.log.tasks ptr = .idle then .ok (s.setClient ptr (.begun hard))
    else .error .waits
  | forceCommits ptr =>
    if s.clients ptr = .other ∧ s.log.tasks ptr = .idle then
      .ok (s.setClient ptr (.lock (.tforceCommits s.softCommits) invalidLsn))
    else .error .waits
  | reserve ptr thread =>
    match s.clients ptr with
    | .begun hard => s.runLog crc32 (.reserve ptr thread) ptr fun _ => .reserved hard
    | _ => .error .waits
  | write ptr prevLSN xid =>
    match s.clients ptr, s.log.tasks ptr with
    | .reserved hard, .reserved _ lsn =>
      s.runLog crc32 (.write ptr ⟨lsn, prevLSN, xid, RawLogEntry.xcommit, []⟩) ptr fun _ =>
        .written hard lsn
    | _, _ => .error .waits
  | done ptr =>
    match s.clients ptr with
    | .written true lsn => s.runLog crc32 (.done ptr) ptr fun _ => .lock (.tcommit lsn) lsn
    | .written false lsn => do
        let s ← s.runLog crc32 (.done ptr) ptr fun _ => .other
        .ok { s with softCommits := lsn :: s.softCommits }
    | _ => .error .waits
  | lock ptr =>
    match s.clients ptr with
    | .lock call lsn => do
        let s ← s.acquire ptr
        .ok (s.setClient ptr (.readUnstable call lsn))
    | _ => .error .waits
  | readUnstable ptr =>
    match s.clients ptr with
    | .readUnstable call lsn => .ok (s.setClient ptr (.readNext call lsn s.firstUnstable))
    | _ => .error .waits
  | readNext ptr =>
    match s.clients ptr with
    | .readNext call lsn firstUnstable =>
      let nextAvailable := s.log.sw.nextAvailableLSN
      let lsn := if lsn = invalidLsn then nextAvailable - 1 else lsn
      if firstUnstable > lsn ∨ firstUnstable = nextAvailable then
        .ok ({ s with checkCommit := none }.setClient ptr (.returned call))
      else .ok (s.setClient ptr (.choose call lsn))
    | _ => .error .waits
  | choose ptr xactcount =>
    match s.clients ptr with
    | .choose call lsn =>
      let s := { s with pendingCommits := s.pendingCommits + 1 }
      if ¬s.log.sw.softcommit ∧ shouldWait xactcount s.pendingCommits then
        .ok ({ s with checkCommit := none }.setClient ptr (.wait call lsn))
      else .ok (s.setClient ptr (.check call lsn))
    | _ => .error .waits
  | wake ptr =>
    match s.clients ptr with
    | .wait call lsn => do
        let _ ← s.acquire ptr
        if s.firstUnstable > lsn then
          .ok ({ s with pendingCommits := s.pendingCommits - 1 }.setClient ptr (.returned call))
        else .ok s
    | _ => .error .waits
  | timeout ptr =>
    match s.clients ptr with
    | .wait call lsn => do
        let s ← s.acquire ptr
        .ok (s.setClient ptr (.check call lsn))
    | _ => .error .waits
  | check ptr =>
    match s.clients ptr with
    | .check call lsn =>
      if s.firstUnstable ≤ lsn then .ok (s.setClient ptr (.tail call lsn))
      else .ok (s.setClient ptr (.checked call lsn))
    | _ => .error .waits
  | forceTail ptr thread =>
    match s.clients ptr with
    | .tail call lsn =>
      s.runLog crc32 (.forceReserve ptr thread .commit) ptr fun _ => .forcing call lsn
    | _ => .error .waits
  | force ptr =>
    match s.clients ptr, (s.log.tasks ptr).nextForce ptr with
    | .forcing call lsn, some op =>
      s.runLog crc32 op ptr fun log =>
        if log.tasks ptr = .idle then .checked call lsn else .forcing call lsn
    | _, _ => .error .waits
  | finish ptr =>
    match s.clients ptr with
    | .checked call lsn =>
      if s.firstUnstable > lsn then
        .ok ({ s with
          pendingCommits := s.pendingCommits - 1, checkCommit := none }.setClient ptr
            (.returned call))
      else .error .fails
    | _ => .error .waits

/-- Entries fit in the log; the steps of other clients are about entries of their own, and the
log stays open and is not truncated. -/
def Move.Allowed (s : Commits) : Move → Prop
  | log op => op.Allowed s.log ∧ op.Appends ∧ ∀ ptr ∈ op.ptr, s.clients ptr = .other
  | write ptr prevLSN xid => (s.log.tasks ptr).Fits ⟨0, prevLSN, xid, RawLogEntry.xcommit, []⟩
  | force _ => crcEnd s.log.sw.nextAvailableLSN < 2 ^ 63
  | _ => True

instance (s : Commits) : (m : Move) → Decidable (m.Allowed s)
  | .log op => inferInstanceAs
      (Decidable (op.Allowed s.log ∧ op.Appends ∧ ∀ ptr ∈ op.ptr, s.clients ptr = .other))
  | .write ptr prevLSN xid => inferInstanceAs
      (Decidable ((s.log.tasks ptr).Fits ⟨0, prevLSN, xid, RawLogEntry.xcommit, []⟩))
  | .force _ => inferInstanceAs (Decidable (crcEnd s.log.sw.nextAvailableLSN < 2 ^ 63))
  | .commit _ _ | .forceCommits _ | .reserve _ _ | .done _ | .lock _ | .readUnstable _ | .readNext _
  | .choose _ _ | .wake _ | .timeout _ | .check _ | .forceTail _ _ | .finish _ => isTrue trivial

def Commits.runAllowed (crc32 : List UInt8 → UInt32 → UInt32) (s : Commits) (m : Move) :
    Except Stop Commits :=
  if m.Allowed s then m.run crc32 s else .error .fails

/-- The record of a commit. -/
def Committed (log : Session) (lsn : Int) : Prop :=
  ∃ e ∈ log.logged, e.LSN = lsn ∧ e.type = RawLogEntry.xcommit

/-- The call may force up to `lsn`, or wherever the log ends. -/
def Requested (log : Session) (call : Call) (lsn : Int) : Prop :=
  lsn < log.sw.nextAvailableLSN ∧
    ∀ x ∈ call.records, Committed log x ∧ (lsn ≠ invalidLsn → x ≤ lsn)

/-- A force up to `lsn` is enough for the call. -/
def Chosen (log : Session) (call : Call) (lsn : Int) : Prop :=
  lsn < log.sw.nextAvailableLSN ∧ ∀ x ∈ call.records, Committed log x ∧ x ≤ lsn

def ClientKnows (log : Session) (ptr : Nat) : Client → Prop
  | .other | .begun _ | .reserved _ => True
  | .written _ lsn => Committed log lsn
  | .lock call lsn | .readUnstable call lsn => Requested log call lsn
  | .readNext call lsn firstUnstable =>
    Requested log call lsn ∧ firstUnstable ≤ log.sw.flushedLSNCommit
  | .choose call lsn | .wait call lsn | .check call lsn | .tail call lsn => Chosen log call lsn
  | .forcing call lsn =>
    Chosen log call lsn ∧ ∃ crc, (log.tasks ptr).force = some (crc, .commit) ∧ lsn < crc
  | .checked call lsn => Chosen log call lsn ∧ lsn < log.sw.flushedLSNCommit
  | .returned call => ∀ x ∈ call.records, Committed log x ∧ x < log.sw.flushedLSNCommit

structure CommitsInv (crc32 : List UInt8 → UInt32 → UInt32) (s : Commits) : Prop where
  log : Inv crc32 s.log
  soft : ∀ x ∈ s.softCommits, Committed s.log x
  knows : ∀ ptr, ClientKnows s.log ptr (s.clients ptr)

section Frame
variable {call : Call}

theorem Committed.mono (step : LogStep log log' ptr) (h : Committed log x) : Committed log' x := by
  obtain ⟨e, mem, facts⟩ := h
  exact ⟨e, step.logged e mem, facts⟩

theorem Committed.lt_next (inv : Inv crc32 log) (h : Committed log x) :
    x < log.sw.nextAvailableLSN := by
  obtain ⟨e, mem, rfl, _⟩ := h
  have := inv.file.run.bounds mem
  omega

theorem Requested.mono (step : LogStep log log' ptr) (h : Requested log call lsn) :
    Requested log' call lsn :=
  ⟨lt_of_lt_of_le h.1 step.next, fun x mem => ⟨(h.2 x mem).1.mono step, (h.2 x mem).2⟩⟩

theorem Chosen.mono (step : LogStep log log' ptr) (h : Chosen log call lsn) :
    Chosen log' call lsn :=
  ⟨lt_of_lt_of_le h.1 step.next, fun x mem => ⟨(h.2 x mem).1.mono step, (h.2 x mem).2⟩⟩

theorem Chosen.returned (h : Chosen log call lsn) (mem : x ∈ call.records)
    (stable : lsn < log.sw.flushedLSNCommit) : Committed log x ∧ x < log.sw.flushedLSNCommit :=
  ⟨(h.2 x mem).1, lt_of_le_of_lt (h.2 x mem).2 stable⟩

theorem Requested.chosen (inv : Inv crc32 log) (h : Requested log call lsn) :
    Chosen log call (if lsn = invalidLsn then log.sw.nextAvailableLSN - 1 else lsn) := by
  split
  · refine ⟨by omega, fun x mem => ⟨(h.2 x mem).1, ?_⟩⟩
    have := (h.2 x mem).1.lt_next inv
    omega
  · next number => exact ⟨h.1, fun x mem => ⟨(h.2 x mem).1, (h.2 x mem).2 number⟩⟩

theorem ClientKnows.frame (h : ClientKnows log q c) (step : LogStep log log' ptr)
    (other : ptr ≠ some q) : ClientKnows log' q c := by
  have commit := step.commit
  cases c with
  | other | begun _ | reserved _ => trivial
  | written _ lsn => exact Committed.mono step h
  | lock call lsn | readUnstable call lsn => exact Requested.mono step h
  | readNext call lsn firstUnstable => exact ⟨h.1.mono step, le_trans h.2 commit⟩
  | choose call lsn | wait call lsn | check call lsn | tail call lsn => exact Chosen.mono step h
  | forcing call lsn =>
    obtain ⟨chosen, crc, force, lt⟩ := h
    exact ⟨chosen.mono step, crc, by rw [step.tasks q other]; exact force, lt⟩
  | checked call lsn => exact ⟨h.1.mono step, lt_of_lt_of_le h.2 commit⟩
  | returned call =>
    exact fun x mem => ⟨(h x mem).1.mono step, lt_of_lt_of_le (h x mem).2 commit⟩

end Frame

namespace CommitsInv
variable {s : Commits}

section
variable (h : CommitsInv crc32 s)
include h

theorem known (client : s.clients ptr = c) : ClientKnows s.log ptr c :=
  client ▸ h.knows ptr

theorem move (log : Inv crc32 after.log) (step : LogStep s.log after.log (some ptr))
    (soft : ∀ x ∈ after.softCommits, Committed after.log x)
    (clients : ∀ q, q ≠ ptr → after.clients q = s.clients q)
    (own : ClientKnows after.log ptr (after.clients ptr)) : CommitsInv crc32 after := by
  refine ⟨log, soft, fun q => ?_⟩
  by_cases same : q = ptr
  · subst same
    exact own
  · rw [clients q same]
    exact (h.knows q).frame step fun eq => same (Option.some.inj eq).symm

theorem setClient {t : Commits} (log : t.log = s.log) (soft : t.softCommits = s.softCommits)
    (clients : t.clients = s.clients) (own : ClientKnows s.log ptr c) :
    CommitsInv crc32 (t.setClient ptr c) := by
  have same : LogStep s.log t.log (some ptr) := log ▸ LogStep.refl s.log (some ptr)
  refine h.move (log ▸ h.log) same ?_ (fun q other => ?_) ?_
  · show ∀ x ∈ t.softCommits, Committed t.log x
    rw [soft, log]
    exact h.soft
  · rw [← clients]
    exact update_of_ne other ..
  · show ClientKnows t.log ptr (update t.clients ptr c ptr)
    rw [update_self, log]
    exact own

theorem log_move (allowed : (Move.log op).Allowed s) (run : (Move.log op).run crc32 s = .ok after) :
    CommitsInv crc32 after := by
  obtain ⟨log, run, eq⟩ := bind_eq_ok.mp run
  have step := logStep h.log allowed.1 allowed.2.1 run
  rw [← Except.ok.inj eq]
  refine ⟨h.log.step allowed.1 run, fun x mem => (h.soft x mem).mono step, fun q => ?_⟩
  by_cases about : op.ptr = some q
  · show ClientKnows log q (s.clients q)
    rw [allowed.2.2 q about]
    trivial
  · exact (h.knows q).frame step about

theorem runLog (run : s.runLog crc32 op ptr c = .ok after) (allowed : op.Allowed s.log)
    (appends : op.Appends) (about : op.ptr = some ptr)
    (own : ∀ log, op.run crc32 s.log = .ok log → LogStep s.log log (some ptr) →
      ClientKnows log ptr (c log)) :
    CommitsInv crc32 after := by
  obtain ⟨log, run, eq⟩ := bind_eq_ok.mp run
  have step := logStep h.log allowed appends run
  rw [about] at step
  rw [← Except.ok.inj eq]
  refine h.move (h.log.step allowed run) step (fun x mem => (h.soft x mem).mono step)
    (fun q other => update_of_ne other ..) ?_
  simp only [Commits.setClient, update_self]
  exact own log run step

end

theorem acquire_ok (run : s.acquire ptr = .ok after) :
    after = { s with checkCommit := some ptr } := by
  rw [Commits.acquire] at run
  split at run
  · exact (Except.ok.inj run).symm
  · cases run

theorem step (h : CommitsInv crc32 s) {m : Move} (allowed : m.Allowed s)
    (run : m.run crc32 s = .ok after) : CommitsInv crc32 after := by
  cases m with
  | log op => exact h.log_move allowed run
  | commit ptr hard =>
    simp only [Move.run] at run
    split at run
    · cases run
      exact h.setClient rfl rfl rfl trivial
    · cases run
  | forceCommits ptr =>
    simp only [Move.run] at run
    split at run
    · cases run
      have base := h.log.file.base
      have next := h.log.file.run.le
      refine h.setClient rfl rfl rfl ⟨?_, fun x mem => ⟨h.soft x mem, fun ne => absurd rfl ne⟩⟩
      rw [invalidLsn]
      rw [lsnSize] at next
      omega
    · cases run
  | reserve ptr thread =>
    simp only [Move.run] at run
    split at run
    · exact h.runLog run trivial trivial rfl fun _ _ _ => trivial
    · cases run
  | write ptr prevLSN xid =>
    simp only [Move.run] at run
    split at run
    · next hard thread lsn client task =>
      have fits : (Task.reserved thread lsn).Fits ⟨0, prevLSN, xid, RawLogEntry.xcommit, []⟩ :=
        task ▸ allowed
      refine h.runLog run ?_ trivial rfl fun log run _ => ?_
      · show (s.log.tasks ptr).Fits _
        rw [task]
        exact fits
      · obtain ⟨_, _, own, _, mem, _⟩ := write_own run
        rw [task] at own
        cases own
        exact ⟨_, mem, rfl, rfl⟩
    · cases run
  | done ptr =>
    simp only [Move.run] at run
    split at run
    · next lsn client =>
      have written : Committed s.log lsn := h.known client
      refine h.runLog run trivial trivial rfl fun log _ step => ?_
      refine ⟨lt_of_lt_of_le (written.lt_next h.log) step.next, fun x mem => ?_⟩
      rw [List.mem_singleton.mp mem]
      exact ⟨written.mono step, fun _ => le_rfl⟩
    · next lsn client =>
      have written : Committed s.log lsn := h.known client
      obtain ⟨mid, run, eq⟩ := bind_eq_ok.mp run
      have inv := h.runLog run trivial trivial rfl fun _ _ _ => trivial
      obtain ⟨log, ran, same⟩ := bind_eq_ok.mp run
      have allows : (Op.done ptr).Allowed s.log := trivial
      have step := logStep h.log allows trivial ran
      cases eq
      refine ⟨inv.log, fun x mem => ?_, inv.knows⟩
      cases List.mem_cons.mp mem with
      | inl new =>
        rw [new, ← Except.ok.inj same]
        exact written.mono step
      | inr old => exact inv.soft x old
    · cases run
  | lock ptr =>
    simp only [Move.run] at run
    split at run
    · next call lsn client =>
      have known := h.known client
      obtain ⟨mid, taken, eq⟩ := bind_eq_ok.mp run
      rw [← Except.ok.inj eq, acquire_ok taken]
      exact h.setClient rfl rfl rfl known
    · cases run
  | readUnstable ptr =>
    simp only [Move.run] at run
    split at run
    · next call lsn client =>
      have known := h.known client
      cases run
      exact h.setClient rfl rfl rfl ⟨known, le_rfl⟩
    · cases run
  | readNext ptr =>
    simp only [Move.run] at run
    split at run
    · next call lsn firstUnstable client =>
      have known := h.known client
      have chosen := known.1.chosen h.log
      have seen := known.2
      generalize (if lsn = invalidLsn then s.log.sw.nextAvailableLSN - 1 else lsn) = number at run chosen
      split at run
      · next early =>
        cases run
        refine h.setClient rfl rfl rfl fun x mem => ?_
        have record := chosen.2 x mem
        have next := record.1.lt_next h.log
        refine ⟨record.1, ?_⟩
        cases early with
        | inl behind => omega
        | inr whole => omega
      · cases run
        exact h.setClient rfl rfl rfl chosen
    · cases run
  | choose ptr xactcount =>
    simp only [Move.run] at run
    split at run
    · next call lsn client =>
      have chosen : Chosen s.log call lsn := h.known client
      split at run
      · cases run
        exact h.setClient rfl rfl rfl chosen
      · cases run
        exact h.setClient rfl rfl rfl chosen
    · cases run
  | wake ptr =>
    simp only [Move.run] at run
    split at run
    · next call lsn client =>
      obtain ⟨_, _, run⟩ := bind_eq_ok.mp run
      split at run
      · next stable =>
        cases run
        exact h.setClient rfl rfl rfl fun x mem => (h.known client).returned mem stable
      · cases run
        exact h
    · cases run
  | timeout ptr =>
    simp only [Move.run] at run
    split at run
    · next call lsn client =>
      have chosen : Chosen s.log call lsn := h.known client
      obtain ⟨mid, taken, eq⟩ := bind_eq_ok.mp run
      rw [← Except.ok.inj eq, acquire_ok taken]
      exact h.setClient rfl rfl rfl chosen
    · cases run
  | check ptr =>
    simp only [Move.run] at run
    split at run
    · next call lsn client =>
      have chosen : Chosen s.log call lsn := h.known client
      split at run
      · cases run
        exact h.setClient rfl rfl rfl chosen
      · next stable =>
        cases run
        exact h.setClient rfl rfl rfl ⟨chosen, not_le.mp stable⟩
    · cases run
  | forceTail ptr thread =>
    simp only [Move.run] at run
    split at run
    · next call lsn client =>
      have chosen : Chosen s.log call lsn := h.known client
      refine h.runLog run trivial trivial rfl fun log run step => ?_
      refine ⟨chosen.mono step, s.log.sw.nextAvailableLSN, ?_, chosen.1⟩
      obtain ⟨_, _, rfl⟩ := reserve_ok run
      simp only [update_self]
      rfl
    · cases run
  | force ptr =>
    simp only [Move.run] at run
    split at run
    · next call lsn op client next =>
      obtain ⟨chosen, crc, force, below⟩ := h.known client
      obtain ⟨appends, about⟩ := nextForce_ptr next
      refine h.runLog run (nextForce_allowed next allowed) appends about fun log run step => ?_
      cases nextForce_own force next run with
      | inl going =>
        have busy : log.tasks ptr ≠ .idle := fun idle => by
          rw [idle] at going
          cases going
        rw [if_neg busy]
        exact ⟨chosen.mono step, crc, going, below⟩
      | inr published =>
        have high := published.2.1
        rw [crcEnd_eq] at high
        rw [if_pos published.1]
        exact ⟨chosen.mono step, by omega⟩
    · cases run
  | finish ptr =>
    simp only [Move.run] at run
    split at run
    · next call lsn client =>
      split at run
      · next stable =>
        cases run
        exact h.setClient rfl rfl rfl fun x mem => (h.known client).1.returned mem stable
      · cases run
    · cases run

end CommitsInv

/-- Nobody commits. -/
structure Started (crc32 : List UInt8 → UInt32 → UInt32) (s : Commits) : Prop where
  log : Reached crc32 s.log
  clients : ∀ ptr, s.clients ptr = .other
  soft : s.softCommits = []

inductive Running (crc32 : List UInt8 → UInt32 → UInt32) : Commits → Prop
  | start {s : Commits} (h : Started crc32 s) : Running crc32 s
  | step {s after : Commits} (before : Running crc32 s) (m : Move) (allowed : m.Allowed s)
      (run : m.run crc32 s = .ok after) : Running crc32 after

theorem Running.steps (h : Running crc32 s) {moves : List Move}
    (run : moves.foldlM (Commits.runAllowed crc32) s = .ok after) : Running crc32 after :=
  foldlM_guarded h (fun _ m _ h allowed => h.step m allowed) run

theorem Running.inv (h : Running crc32 s) : CommitsInv crc32 s := by
  induction h with
  | start h =>
    refine ⟨h.log.inv, fun x mem => ?_, fun ptr => ?_⟩
    · rw [h.soft] at mem
      exact absurd mem List.not_mem_nil
    · rw [h.clients ptr]
      trivial
  | step _ m allowed run ih => exact ih.step allowed run

theorem Running.stable {call : Call} (h : Running crc32 s) (returned : s.clients ptr = .returned call)
    (mem : x ∈ call.records) :
    Committed s.log x ∧
      ∀ f ∈ s.log.logged, f.LSN ≤ x → nextEntry f ≤ s.firstUnstable := by
  have inv := h.inv
  obtain ⟨committed, below⟩ := inv.known returned x mem
  refine ⟨committed, fun f logged le => ?_⟩
  exact (inv.log.marks.commit.clean inv.log.file.run f logged).resolve_left (by omega)

end Stasis.GroupForce
