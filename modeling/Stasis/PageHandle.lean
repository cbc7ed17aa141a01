import Stasis.Logger.SafeWrites.Progress

/-!
Pages over the safe writes log.

A transaction latches a page, writes an entry to the log, applies it and sets the page's
LSN, and then reports the entry done. The page handle writes a page that nobody has pinned:
it puts the LSN into the image, forces the log up to it, and passes the image to the file.
Both are clients of the log, under the address of the entry that they write; so are all
other threads, which may write and force what they like. `effects` is no part of the
program: it records the entries whose effects a page contains.
-/
namespace Stasis.PageHandle
open SafeWrites Fallible Function
export SafeWrites (Session)

structure BufferPage where
  lsn : Int
  dirty : Bool
  effects : List Int
  /-- The client that has pinned the page, or has exclusive access to it. -/
  holder : Option Nat

/-- Where a client is in `TupdateWithPage` or in `phWrite`. The page of `phWrite` comes with
the LSN that is stored in its image. -/
inductive Client where
  | other
  | latched (page : Nat)
  | reserved (page : Nat)
  | written (page : Nat) (lsn : Int)
  | applied (page : Nat)
  | finished (page : Nat)
  | flushed (page : Nat) (image : Int)
  | tail (page : Nat) (image : Int)
  | forcing (page : Nat) (image : Int)
  | forced (page : Nat) (image : Int)
deriving DecidableEq, Repr

structure Buffers where
  log : Session
  pages : Nat → BufferPage
  clients : Nat → Client

inductive Move where
  | log (op : Op)
  | latch (ptr page : Nat)
  | reserve (ptr thread : Nat)
  | write (ptr : Nat) (e : RawLogEntry)
  | apply (ptr : Nat)
  | done (ptr : Nat)
  | unlatch (ptr : Nat)
  | flush (ptr page : Nat)
  | test (ptr : Nat)
  | forceTail (ptr thread : Nat)
  | force (ptr : Nat)
  | writePage (ptr : Nat)
deriving DecidableEq, Repr

namespace Buffers
variable (crc32 : List UInt8 → UInt32 → UInt32)

section
variable (s : Buffers)

def setClient (ptr : Nat) (c : Client) : Buffers :=
  { s with clients := update s.clients ptr c }

def setPage (page : Nat) (p : BufferPage) : Buffers :=
  { s with pages := update s.pages page p }

def runLog (op : Op) (ptr : Nat) (c : Session → Client) : Except Stop Buffers := do
  let log ← op.run crc32 s.log
  .ok ({ s with log := log }.setClient ptr (c log))

/-- A client takes a page that nobody else has. -/
def take (ptr page : Nat) (c : Client) : Except Stop Buffers :=
  if s.clients ptr = .other ∧ s.log.tasks ptr = .idle ∧ (s.pages page).holder = none then
    .ok ((s.setPage page { s.pages page with holder := some ptr }).setClient ptr c)
  else .error .waits

def release (ptr page : Nat) : Buffers :=
  (s.setPage page { s.pages page with holder := none }).setClient ptr .other

end

/-- `stasis_operation_do`: the effect, and then `stasis_page_lsn_write`. -/
def operationDo (p : BufferPage) (lsn : Int) : BufferPage :=
  { p with lsn := if p.lsn < lsn then lsn else p.lsn, dirty := true, effects := lsn :: p.effects }

end Buffers

open Buffers in
def Move.run (crc32 : List UInt8 → UInt32 → UInt32) (s : Buffers) : Move → Except Stop Buffers
  | log op => do
      let log ← op.run crc32 s.log
      .ok { s with log := log }
  | latch ptr page => s.take ptr page (.latched page)
  | reserve ptr thread =>
    match s.clients ptr with
    | .latched page => s.runLog crc32 (.reserve ptr thread) ptr fun _ => .reserved page
    | _ => .error .waits
  | write ptr e =>
    match s.clients ptr, s.log.tasks ptr with
    | .reserved page, .reserved _ lsn =>
      s.runLog crc32 (.write ptr e) ptr fun _ => .written page lsn
    | _, _ => .error .waits
  | apply ptr =>
    match s.clients ptr with
    | .written page lsn =>
      .ok ((s.setPage page (operationDo (s.pages page) lsn)).setClient ptr (.applied page))
    | _ => .error .waits
  | done ptr =>
    match s.clients ptr with
    | .applied page => s.runLog crc32 (.done ptr) ptr fun _ => .finished page
    | _ => .error .waits
  | unlatch ptr =>
    match s.clients ptr with
    | .finished page => .ok (s.release ptr page)
    | _ => .error .waits
  | flush ptr page =>
    if (s.pages page).dirty then s.take ptr page (.flushed page (s.pages page).lsn)
    else .error .waits
  | test ptr =>
    match s.clients ptr with
    | .flushed page image =>
      if s.log.sw.flushedLSN .wal ≤ image then .ok (s.setClient ptr (.tail page image))
      else .ok (s.setClient ptr (.forced page image))
    | _ => .error .waits
  | forceTail ptr thread =>
    match s.clients ptr with
    | .tail page image =>
      s.runLog crc32 (.forceReserve ptr thread .wal) ptr fun _ => .forcing page image
    | _ => .error .waits
  | force ptr =>
    match s.clients ptr, (s.log.tasks ptr).nextForce ptr with
    | .forcing page image, some op =>
      s.runLog crc32 op ptr fun log =>
        if log.tasks ptr = .idle then .forced page image else .forcing page image
    | _, _ => .error .waits
  | writePage ptr =>
    match s.clients ptr with
    | .forced page _ =>
      .ok ((s.setPage page { s.pages page with dirty := false, holder := none }).setClient ptr
        .other)
    | _ => .error .waits

/-- Entries fit in the log; the steps of other clients are about entries of their own, and the
log stays open and is not truncated. -/
def Move.Allowed (s : Buffers) : Move → Prop
  | log op => op.Allowed s.log ∧ op.Appends ∧ ∀ ptr ∈ op.ptr, s.clients ptr = .other
  | write ptr e => (Op.write ptr e).Allowed s.log
  | force _ => crcEnd s.log.sw.nextAvailableLSN < 2 ^ 63
  | _ => True

instance (s : Buffers) : (m : Move) → Decidable (m.Allowed s)
  | .log op => inferInstanceAs
      (Decidable (op.Allowed s.log ∧ op.Appends ∧ ∀ ptr ∈ op.ptr, s.clients ptr = .other))
  | .write ptr e => inferInstanceAs (Decidable ((Op.write ptr e).Allowed s.log))
  | .force _ => inferInstanceAs (Decidable (crcEnd s.log.sw.nextAvailableLSN < 2 ^ 63))
  | .latch _ _ | .reserve _ _ | .apply _ | .done _ | .unlatch _ | .flush _ _ | .test _
  | .forceTail _ _ | .writePage _ => isTrue trivial

def Buffers.runAllowed (crc32 : List UInt8 → UInt32 → UInt32) (s : Buffers) (m : Move) :
    Except Stop Buffers :=
  if m.Allowed s then m.run crc32 s else .error .fails

/-- An update of the log. -/
def Logged (log : Session) (lsn : Int) : Prop :=
  ∃ e ∈ log.logged, e.LSN = lsn ∧ e.type ≠ RawLogEntry.internalLog

def Client.page : Client → Option Nat
  | other => none
  | latched page | reserved page | written page _ | applied page | finished page | flushed page _
  | tail page _ | forcing page _ | forced page _ => some page

/-- What a client knows apart from having its page. -/
def ClientKnows (log : Session) (p : BufferPage) (ptr : Nat) : Client → Prop
  | .written _ lsn => Logged log lsn
  | .flushed _ image | .tail _ image => p.lsn = image
  | .forcing _ image => p.lsn = image ∧ ∃ lsn, (log.tasks ptr).force = some (lsn, .wal) ∧
      ∀ x ∈ p.effects, x < lsn
  | .forced _ image => p.lsn = image ∧ ∀ x ∈ p.effects, x < log.sw.flushedLSNWal
  | _ => True

structure BuffersInv (crc32 : List UInt8 → UInt32 → UInt32) (s : Buffers) : Prop where
  log : Inv crc32 s.log
  effects : ∀ page, ∀ x ∈ (s.pages page).effects, x ≤ (s.pages page).lsn ∧ Logged s.log x
  holder : ∀ ptr page, (s.clients ptr).page = some page → (s.pages page).holder = some ptr
  knows : ∀ ptr page, (s.clients ptr).page = some page →
    ClientKnows s.log (s.pages page) ptr (s.clients ptr)

theorem Logged.mono (step : LogStep log log' ptr) (h : Logged log x) : Logged log' x := by
  obtain ⟨e, mem, facts⟩ := h
  exact ⟨e, step.logged e mem, facts⟩

theorem ClientKnows.frame (h : ClientKnows log p q c) (step : LogStep log log' ptr)
    (other : ptr ≠ some q) : ClientKnows log' p q c := by
  cases c with
  | other | latched _ | reserved _ | applied _ | finished _ => trivial
  | written page lsn => exact Logged.mono step h
  | flushed page image | tail page image => exact h
  | forcing page image =>
    obtain ⟨eq, lsn, force, below⟩ := h
    exact ⟨eq, lsn, by rw [step.tasks q other]; exact force, below⟩
  | forced page image => exact ⟨h.1, fun x mem => lt_of_lt_of_le (h.2 x mem) step.wal⟩

theorem BuffersInv.move (h : BuffersInv crc32 s) (ptr : Nat) (log : Inv crc32 after.log)
    (step : LogStep s.log after.log (some ptr))
    (effects : ∀ page, ∀ x ∈ (after.pages page).effects, x ≤ (after.pages page).lsn ∧
      Logged after.log x) (clients : ∀ q, q ≠ ptr → after.clients q = s.clients q)
    (pages : ∀ q page, q ≠ ptr → (s.clients q).page = some page → after.pages page = s.pages page)
    (own : ∀ page, (after.clients ptr).page = some page →
      (after.pages page).holder = some ptr ∧
      ClientKnows after.log (after.pages page) ptr (after.clients ptr)) :
    BuffersInv crc32 after := by
  refine ⟨log, effects, fun q page held => ?_, fun q page held => ?_⟩
  · by_cases same : q = ptr
    · subst same
      exact (own page held).1
    · rw [clients q same] at held
      rw [pages q page same held]
      exact h.holder q page held
  · by_cases same : q = ptr
    · subst same
      exact (own page held).2
    · rw [clients q same] at held ⊢
      rw [pages q page same held]
      exact (h.knows q page held).frame step fun eq => same (Option.some.inj eq).symm

theorem BuffersInv.apart (h : BuffersInv crc32 s) {ptr page : Nat} (other : q ≠ ptr)
    (held : (s.clients ptr).page = some page) : (s.clients q).page ≠ some page := by
  intro also
  have := (h.holder q page also).symm.trans (h.holder ptr page held)
  exact other (Option.some.inj this)

namespace BuffersInv
variable (h : BuffersInv crc32 s)
include h

theorem log_move (allowed : (Move.log op).Allowed s) (run : (Move.log op).run crc32 s = .ok after) :
    BuffersInv crc32 after := by
  obtain ⟨log, run, eq⟩ := bind_eq_ok.mp run
  have step := logStep h.log allowed.1 allowed.2.1 run
  rw [← Except.ok.inj eq]
  refine ⟨h.log.step allowed.1 run, fun page x mem => ?_, h.holder, fun q page held => ?_⟩
  · exact ⟨(h.effects page x mem).1, (h.effects page x mem).2.mono step⟩
  · refine (h.knows q page held).frame step fun eq => ?_
    rw [allowed.2.2 q eq] at held
    cases held

theorem runLog {c : Session → Client} (run : s.runLog crc32 op ptr c = .ok after)
    (allowed : op.Allowed s.log) (appends : op.Appends) (about : op.ptr = some ptr)
    (held : (s.clients ptr).page = some page) (kept : ∀ log, (c log).page = some page)
    (own : ∀ log, op.run crc32 s.log = .ok log → ClientKnows log (s.pages page) ptr (c log)) :
    BuffersInv crc32 after := by
  obtain ⟨log, run, eq⟩ := bind_eq_ok.mp run
  have step := logStep h.log allowed appends run
  rw [about] at step
  rw [← Except.ok.inj eq]
  refine h.move ptr (h.log.step allowed run) step (fun page x mem => ?_) (fun q other => ?_)
    (fun _ _ _ _ => rfl) fun page' also => ?_
  · exact ⟨(h.effects page x mem).1, (h.effects page x mem).2.mono step⟩
  · exact update_of_ne other ..
  · simp only [Buffers.setClient, update_self] at also ⊢
    obtain rfl := Option.some.inj ((kept log).symm.trans also)
    exact ⟨h.holder ptr page held, own log run⟩

theorem update (alone : ∀ q, q ≠ ptr → (s.clients q).page ≠ some page)
    (effects : ∀ x ∈ p.effects, x ≤ p.lsn ∧ Logged s.log x)
    (own : c = .other ∨ c.page = some page ∧ p.holder = some ptr ∧ ClientKnows s.log p ptr c) :
    BuffersInv crc32 ((s.setPage page p).setClient ptr c) := by
  refine h.move ptr h.log (.refl _ _) (fun page' => ?_) (fun q other => ?_)
    (fun q page' other also => ?_) fun page' also => ?_
  · by_cases same : page' = page
    · have eq : ((s.setPage page p).setClient ptr c).pages page' = p := same ▸ update_self ..
      rw [eq]
      exact effects
    · have eq : (s.setPage page p).pages page' = s.pages page' := update_of_ne same ..
      exact eq ▸ h.effects page'
  · exact update_of_ne other ..
  · have ne : page' ≠ page := fun same => alone q other (same ▸ also)
    exact update_of_ne ne ..
  · simp only [Buffers.setClient, Buffers.setPage, update_self] at also ⊢
    cases own with
    | inl gone =>
      rw [gone] at also
      cases also
    | inr known =>
      cases known.1.symm.trans also
      simp only [update_self]
      exact known.2

theorem take (run : s.take ptr page c = .ok after) (kept : c.page = some page)
    (own : ∀ p : BufferPage, p.lsn = (s.pages page).lsn → ClientKnows s.log p ptr c) :
    BuffersInv crc32 after := by
  rw [Buffers.take] at run
  split at run
  · next free =>
    cases run
    refine h.update (fun q _ held => ?_) (h.effects page) (.inr ⟨kept, rfl, own _ rfl⟩)
    have := h.holder q page held
    rw [free.2.2] at this
    cases this
  · cases run

theorem release (held : (s.clients ptr).page = some page) : BuffersInv crc32 (s.release ptr page) :=
  h.update (fun _ other => h.apart other held) (h.effects page) (.inl rfl)

theorem setClient (held : (s.clients ptr).page = some page) (kept : c.page = some page)
    (own : ClientKnows s.log (s.pages page) ptr c) : BuffersInv crc32 (s.setClient ptr c) := by
  have same : s.setPage page (s.pages page) = s := by
    rw [Buffers.setPage, update_eq_self]
  have known := h.update (p := s.pages page) (fun _ other => h.apart other held) (h.effects page)
    (.inr ⟨kept, h.holder ptr page held, own⟩)
  rwa [same] at known

theorem step {m : Move} (allowed : m.Allowed s) (run : m.run crc32 s = .ok after) :
    BuffersInv crc32 after := by
  cases m with
  | log op => exact h.log_move allowed run
  | latch ptr page => exact h.take run rfl fun _ _ => trivial
  | flush ptr page =>
    simp only [Move.run] at run
    split at run
    · exact h.take run rfl fun _ lsn => lsn
    · cases run
  | reserve ptr thread =>
    simp only [Move.run] at run
    split at run
    · next page client =>
      exact h.runLog run trivial trivial rfl (by rw [client]; rfl) (fun _ => rfl) fun _ _ => trivial
    · cases run
  | write ptr e =>
    simp only [Move.run] at run
    split at run
    · next page thread lsn client task =>
      refine h.runLog run allowed trivial rfl (by rw [client]; rfl) (fun _ => rfl) fun log run => ?_
      obtain ⟨_, _, own, _, mem, plain⟩ := write_own run
      rw [task] at own
      cases own
      exact ⟨_, mem, rfl, plain⟩
    · cases run
  | done ptr =>
    simp only [Move.run] at run
    split at run
    · next page client =>
      exact h.runLog run trivial trivial rfl (by rw [client]; rfl) (fun _ => rfl) fun _ _ => trivial
    · cases run
  | apply ptr =>
    simp only [Move.run] at run
    split at run
    · next page lsn client =>
      have held : (s.clients ptr).page = some page := by rw [client]; rfl
      have logged := h.knows ptr page held
      rw [client] at logged
      cases run
      refine h.update (fun _ other => h.apart other held) (fun x mem => ?_)
        (.inr ⟨rfl, h.holder ptr page held, trivial⟩)
      show x ≤ (if (s.pages page).lsn < lsn then lsn else (s.pages page).lsn) ∧ _
      cases List.mem_cons.mp mem with
      | inl new =>
        subst new
        refine ⟨?_, logged⟩
        split <;> omega
      | inr old =>
        have low := h.effects page x old
        refine ⟨?_, low.2⟩
        split <;> omega
    · cases run
  | unlatch ptr =>
    simp only [Move.run] at run
    split at run
    · next page client =>
      cases run
      exact h.release (by rw [client]; rfl)
    · cases run
  | test ptr =>
    simp only [Move.run] at run
    split at run
    · next page image client =>
      have held : (s.clients ptr).page = some page := by rw [client]; rfl
      have stored := h.knows ptr page held
      rw [client] at stored
      split at run
      · cases run
        exact h.setClient held rfl stored
      · next stable =>
        cases run
        refine h.setClient held rfl ⟨stored, fun x mem => ?_⟩
        have low := (h.effects page x mem).1
        have image_eq : (s.pages page).lsn = image := stored
        have wal : ¬s.log.sw.flushedLSNWal ≤ image := stable
        omega
    · cases run
  | forceTail ptr thread =>
    simp only [Move.run] at run
    split at run
    · next page image client =>
      have held : (s.clients ptr).page = some page := by rw [client]; rfl
      have stored := h.knows ptr page held
      rw [client] at stored
      refine h.runLog run trivial trivial rfl held (fun _ => rfl) fun log run => ?_
      obtain ⟨_, _, rfl⟩ := reserve_ok run
      refine ⟨stored, s.log.sw.nextAvailableLSN, ?_, fun x mem => ?_⟩
      · simp only [update_self]
        rfl
      · obtain ⟨e, logged, rfl, _⟩ := (h.effects page x mem).2
        have := h.log.file.run.bounds logged
        omega
    · cases run
  | force ptr =>
    simp only [Move.run] at run
    split at run
    · next page image op client next =>
      have held : (s.clients ptr).page = some page := by rw [client]; rfl
      have known := h.knows ptr page held
      rw [client] at known
      obtain ⟨stored, lsn, force, below⟩ := known
      obtain ⟨appends, about⟩ := nextForce_ptr next
      have fits := nextForce_allowed next allowed
      refine h.runLog run fits appends about held (fun log => by split <;> rfl) fun log run => ?_
      cases nextForce_own force next run with
      | inl going =>
        have busy : log.tasks ptr ≠ .idle := fun idle => by
          rw [idle] at going
          cases going
        rw [if_neg busy]
        exact ⟨stored, lsn, going, below⟩
      | inr published =>
        rw [if_pos published.1]
        refine ⟨stored, fun x mem => ?_⟩
        have low := below x mem
        have high := published.2.2 rfl
        rw [crcEnd_eq] at high
        omega
    · cases run
  | writePage ptr =>
    simp only [Move.run] at run
    split at run
    · next page image client =>
      have held : (s.clients ptr).page = some page := by rw [client]; rfl
      cases run
      exact h.update (fun _ other => h.apart other held) (h.effects page) (.inl rfl)
    · cases run

end BuffersInv

/-- Nobody uses a page, and pages contain effects of entries of the log only. -/
structure Started (crc32 : List UInt8 → UInt32 → UInt32) (s : Buffers) : Prop where
  log : Reached crc32 s.log
  clients : ∀ ptr, s.clients ptr = .other
  effects : ∀ page, ∀ x ∈ (s.pages page).effects, x ≤ (s.pages page).lsn ∧ Logged s.log x

inductive Running (crc32 : List UInt8 → UInt32 → UInt32) : Buffers → Prop
  | start {s : Buffers} (h : Started crc32 s) : Running crc32 s
  | step {s after : Buffers} (before : Running crc32 s) (m : Move) (allowed : m.Allowed s)
      (run : m.run crc32 s = .ok after) : Running crc32 after

section
variable (h : Running crc32 s)
include h

theorem Running.steps {moves : List Move}
    (run : moves.foldlM (Buffers.runAllowed crc32) s = .ok after) : Running crc32 after :=
  foldlM_guarded h (fun _ m _ h allowed => h.step m allowed) run

theorem Running.inv : BuffersInv crc32 s := by
  induction h with
  | start h =>
    refine ⟨h.log.inv, h.effects, fun ptr page held => ?_, fun ptr page held => ?_⟩
    · rw [h.clients ptr] at held
      cases held
    · rw [h.clients ptr] at held
      cases held
  | step _ m allowed run ih => exact ih.step allowed run

end

/-- When the image of a page is passed to the file, its LSN is that of the newest entry in it
or greater, and all these entries are on disk, with a checksum behind them. -/
theorem write_ahead {crc32 : List UInt8 → UInt32 → UInt32} {s : Buffers} (h : Running crc32 s)
    {ptr page : Nat} {image : Int} (passed : s.clients ptr = .forced page image) :
    ∀ x ∈ (s.pages page).effects, x ≤ image ∧
      ∃ e ∈ s.log.logged, e.LSN = x ∧ OnDisk s.log.sw e ∧
        ∃ c ∈ s.log.logged, c.type = RawLogEntry.internalLog ∧ e.LSN < c.LSN ∧
          OnDisk s.log.sw c := by
  have inv := h.inv
  have held : (s.clients ptr).page = some page := by rw [passed]; rfl
  have known := inv.knows ptr page held
  rw [passed] at known
  obtain ⟨stored, forced⟩ := known
  intro x mem
  obtain ⟨low, e, logged, lsn, plain⟩ := inv.effects page x mem
  have marks := inv.log.marks
  have below : e.LSN < s.log.sw.flushedLSNWal := lsn ▸ forced x mem
  obtain ⟨c, held, internal, le, stop⟩ := marks.wal e logged below
  have run := inv.log.file.run
  have before : e.LSN < c.LSN := by
    refine lt_of_le_of_ne le fun eq => plain ?_
    have posE := (run.bounds logged).2.1
    have posC := (run.bounds held).2.1
    rw [run.inj logged held ⟨le_rfl, by omega⟩ ⟨by omega, by omega⟩]
    exact internal
  have synced : nextEntry c ≤ s.log.sw.globalOffset + s.log.sw.synced :=
    le_trans stop marks.walSynced
  have first : nextEntry e ≤ s.log.sw.globalOffset + s.log.sw.synced := by
    have := run.before logged held before
    have := (run.bounds held).2.1
    rw [nextEntry_eq] at synced ⊢
    omega
  exact ⟨stored ▸ low, e, logged, lsn, inv.log.file.onDisk logged marks.syncedLe first, c, held,
    internal, before, inv.log.file.onDisk held marks.syncedLe synced⟩

/-- A page is updated by the entry at 8, and then written. In soft commit mode, too, the log is
synced first. -/
theorem write_ahead_one : ∃ s : Buffers, s.clients 2 = .forced 0 8 ∧ (s.pages 0).effects = [8] ∧
    ∃ e ∈ s.log.logged, e.LSN = 8 ∧ OnDisk s.log.sw e := by
  obtain ⟨s, run, client, effects⟩ : ∃ s, [.latch 1 0, .reserve 1 1,
      .write 1 ⟨0, -1, 1, RawLogEntry.xcommit, []⟩, .apply 1, .done 1, .unlatch 1, .flush 2 0,
      .test 2, .forceTail 2 1, .force 2, .force 2, .force 2, .force 2, .force 2].foldlM
        (Buffers.runAllowed fun _ crc => crc)
        ⟨created true false, fun _ => ⟨0, false, [], none⟩, fun _ => .other⟩ = .ok s ∧
      s.clients 2 = .forced 0 8 ∧ (s.pages 0).effects = [8] := by
    decide +kernel
  have running : Running (fun _ crc => crc) s := (Running.start ⟨.created true false, fun _ => rfl,
    fun _ _ mem => absurd mem List.not_mem_nil⟩).steps run
  obtain ⟨_, e, mem, lsn, disk, _⟩ := write_ahead running client 8 (effects ▸ List.mem_cons_self)
  exact ⟨s, client, effects, e, mem, lsn, disk⟩

end Stasis.PageHandle
