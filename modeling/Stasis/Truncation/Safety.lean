import Stasis.Truncation

/-!
Truncation keeps what abort and recovery need.

The first watermark that is read, first_pending_lsn, covers every entry that a
thread has still to record or to apply; what other threads add to the tables
afterwards stays above it. Each later read adds the entries that its table held
at that moment. The branch that flushes the dirty pages reads first_pending_lsn
again, but not the transaction table.
-/
namespace Stasis
open TransactionTable Function List Shared
variable {t : LogType} {s : Shared}

/-- When first_pending_lsn is read no CLR waits to be applied behind its mark, and, with
the file pool, no written entry waits for its mark. -/
def Quiet (t : LogType) (s : Shared) : Prop :=
  t ≠ .logToMemory → (∀ f ∈ s.inFlight, f.stage ≠ .done) ∧
    (t = .logToDir → ∀ f ∈ s.inFlight, f.stage = .reserved)

/-- The transactions that the reads of the table and of first_unstable_lsn have missed
are still working on their first entry. -/
def NoneMissed (s : Shared) (bound : Int) : Prop :=
  ∀ i, InRange i → (s.tbl i).xid = i → (s.tbl i).prevLSN ≠ invalidLsn →
    (s.tbl i).recLSN < bound → ∃ f ∈ s.inFlight, f.lsn = (s.tbl i).recLSN

def Careful (t : LogType) (s : Shared) : TruncationPoint → Prop
  | .readApplied _ => Quiet t s
  | .rereadApplied xactRec flushed _ => Quiet t s ∧ NoneMissed s (min xactRec flushed)
  | .returned _ | .readPages _ _ | .readXid _ _ _ _ _ | .readRecLSN _ _ _ _ _
  | .readFlushed _ _ _ _ | .compare _ _ _ _ _ | .reconsider _ _ _ _ | .flush _ _ _ _
  | .rereadPages _ _ _ | .truncate _ => True

/-- Every entry in flight, and every entry to come, is at or above `b`. -/
structure Ahead (s : Shared) (b : Int) : Prop where
  inFlight : ∀ f ∈ s.inFlight, b ≤ f.lsn
  next : b ≤ s.nextAvailableLSN

def PagesAbove (s : Shared) (b : Int) : Prop := ∀ d ∈ s.dirtyPages, b ≤ d.2

/-- The transactions in slots below `n` began at or above `b`. -/
def XactsAbove (s : Shared) (n b : Int) : Prop :=
  ∀ i, InRange i → i < n → (s.tbl i).xid = i → (s.tbl i).prevLSN ≠ invalidLsn →
    b ≤ (s.tbl i).recLSN

variable {after : List InFlight} {f : InFlight} {n applied : Int} {l : List Int} {i : Nat}
  {Early : Prop}

/-- What the truncating thread knows at each of its points. -/
def Known (s : Shared) : TruncationPoint → Prop
  | .returned _ | .readApplied _ => True
  | .readPages _ applied => Ahead s applied
  | .readXid _ applied pageRec xactRec i | .readRecLSN _ applied pageRec xactRec i =>
    Ahead s applied ∧ PagesAbove s (min pageRec applied) ∧
      XactsAbove s i (min xactRec applied)
  | .readFlushed _ applied pageRec xactRec =>
    Ahead s applied ∧ PagesAbove s (min pageRec applied) ∧
      XactsAbove s maxTransactions (min xactRec applied)
  | .compare _ applied pageRec xactRec flushed =>
    Ahead s applied ∧ PagesAbove s (min pageRec applied) ∧
      XactsAbove s maxTransactions (min xactRec applied) ∧ flushed ≤ s.nextAvailableLSN
  | .reconsider _ _ flushed _ | .rereadApplied _ flushed _ => flushed ≤ s.nextAvailableLSN
  | .flush applied xactRec flushed _ | .rereadPages applied xactRec flushed =>
    Ahead s applied ∧ XactsAbove s maxTransactions (min (min xactRec flushed) applied) ∧
      flushed ≤ s.nextAvailableLSN
  | .truncate recLsn => Ahead s recLsn ∧ PagesAbove s recLsn ∧
      XactsAbove s maxTransactions recLsn

theorem Ahead.mono (ahead : Ahead s a) (le : b ≤ a) : Ahead s b :=
  ⟨fun f hf => le.trans (ahead.inFlight f hf), le.trans ahead.next⟩

theorem PagesAbove.mono (pages : PagesAbove s a) (le : b ≤ a) : PagesAbove s b :=
  fun d hd => le.trans (pages d hd)

theorem XactsAbove.mono (xacts : XactsAbove s n a) (le : b ≤ a) : XactsAbove s n b :=
  fun i range below active logged => le.trans (xacts i range below active logged)

section Runs
variable {Early : TruncationPoint → Prop}

theorem TruncationRun.next (run : TruncationRun t Allowed Early s pt) (eagain : Bool)
    (allowed : Allowed s pt) (step : truncationStep t eagain s pt = (s', pt')) :
    TruncationRun t Allowed Early s' pt' := by
  have after := run.truncation s pt eagain allowed
  rw [step] at after
  exact after

theorem TruncationRun.freeSlots {i n : Nat} (count : (i : Int) + n = maxTransactions)
    (free : ∀ j : Nat, i ≤ j → (s.tbl j).xid < 0)
    (allowed : ∀ j, Allowed s (.readXid force applied pageRec xactRec j))
    (run : TruncationRun t Allowed Early s (.readXid force applied pageRec xactRec i)) :
    TruncationRun t Allowed Early s (.readFlushed force applied pageRec xactRec) := by
  induction n generalizing i with
  | zero =>
    refine run.next false (allowed i) ?_
    rw [truncationStep, if_neg (by omega)]
  | succ n ih =>
    have unused := free i (Nat.le_refl i)
    have step : truncationStep t false s (.readXid force applied pageRec xactRec i) =
        (s, .readXid force applied pageRec xactRec (i + 1)) := by
      rw [truncationStep, if_pos (by omega), if_neg (by omega)]
    exact ih (by push_cast at count ⊢; omega) (fun j le => free j (by omega))
      (run.next false (allowed i) step)

theorem not_working (none : s.inFlight = []) (xid : Int) : ¬ s.Working xid := by
  rintro ⟨f, hf, _⟩
  rw [none] at hf
  cases hf

theorem set_zero_others {tbl : TransactionTable} (others : ∀ i, i ≠ 0 → tbl i = init i)
    (l : TransactionTableEntry) : ∀ i, i ≠ 0 → tbl.set 0 l i = init i :=
  fun i other => (set_of_ne _ _ other).trans (others i other)

/-- Only slot 0 was ever used. -/
theorem TruncationRun.otherSlots (others : ∀ i, i ≠ 0 → s.tbl i = init i)
    (allowed : ∀ j, Allowed s (.readXid force applied pageRec xactRec j))
    (run : TruncationRun t Allowed Early s (.readXid force applied pageRec xactRec 1)) :
    TruncationRun t Allowed Early s (.readFlushed force applied pageRec xactRec) := by
  refine run.freeSlots (n := 999) rfl (fun j pos => ?_) allowed
  rw [others j (by omega)]
  exact of_decide_eq_true rfl

theorem noneMissed_slot_zero (others : ∀ i, i ≠ 0 → s.tbl i = init i)
    (high : bound ≤ (s.tbl 0).recLSN) : NoneMissed s bound := by
  intro i range active logged low
  have first : i = 0 := by
    by_contra other
    have nonneg := range.1
    rw [others i other] at active
    simp only [TransactionTable.init, invalidXtableXid, invalidXid] at active
    omega
  subst first
  omega

end Runs

/-- A CLR is marked done before the reads begin. It dirties its page behind the read of the dirty
page table, and its transaction ends. -/
theorem truncate_loses_clr :
    ∃ s, TruncationRun .logToFile (fun _ _ => True) (fun _ => True) s (.truncate 30000064) ∧
      ¬ Needed s 30000064 := by
  have h0 : TruncationRun .logToFile (fun _ _ => True) (fun _ => True) _ _ := .start
  have h1 := h0.thread _ _ _ (.begin _ 0 ⟨by decide, by decide⟩ (.inl rfl))
  have h2 := h1.thread _ _ _ (.reserve _ 0 30000000 false [] ⟨by decide, by decide⟩ rfl
    (not_working rfl 0) nofun (by decide))
  have h3 := h2.thread _ _ _ (.write _ [] [] _ rfl rfl)
  have h4 := h3.thread _ _ _ (.record _ [] [] _ rfl rfl rfl)
  have h5 := h4.thread _ _ _ (.updateDone _ [] [] _ rfl rfl rfl rfl)
  have h6 := h5.thread _ _ _ (.reserve _ 0 56 true [7] ⟨by decide, by decide⟩ rfl
    (not_working rfl 0) (fun _ => by decide) (by decide))
  have h7 := h6.thread _ _ _ (.write _ [] [] _ rfl rfl)
  have h8 := h7.thread _ _ _ (.clrDone _ [] [] _ rfl rfl rfl)
  have h9 := (h8.call _ _ true).next false trivial rfl
  have h10 := h9.next false trivial rfl
  have h11 := h10.thread _ _ _ (.apply _ [] [] _ 7 [] rfl rfl rfl false nofun)
  have h12 := h11.thread _ _ _ (.clrApplied _ [] [] _ rfl rfl rfl rfl)
  have h13 := h12.thread _ _ _ (.finish _ 0 ⟨by decide, by decide⟩ rfl (not_working rfl 0))
  have h14 := h13.thread _ _ _ (.force _ 30000064 (by decide) (by decide) fun _ hf => nomatch hf)
  have h15 := h14.next false trivial rfl
  have h16 := h15.otherSlots
    (set_zero_others (set_zero_others (set_zero_others (fun _ _ => rfl) _) _) _) fun _ => trivial
  exact ⟨_, (h16.next false trivial rfl).next false trivial rfl, fun needed =>
    absurd (needed.pages (7, 30000008) (.head _)) (by decide)⟩

/-- With the file pool, an entry is written and not yet in its transaction's slot. -/
theorem truncate_loses_written :
    ∃ s, TruncationRun .logToDir (fun _ _ => True) (fun _ => True) s (.truncate 30000001) ∧
      ¬ Needed s 30000001 := by
  have h0 : TruncationRun .logToDir (fun _ _ => True) (fun _ => True) _ _ := .start
  have h1 := h0.thread _ _ _ (.begin _ 0 ⟨by decide, by decide⟩ (.inl rfl))
  have h2 := h1.thread _ _ _ (.reserve _ 0 30000000 false [7] ⟨by decide, by decide⟩ rfl
    (not_working rfl 0) nofun (by decide))
  have h3 := h2.thread _ _ _ (.write _ [] [] _ rfl rfl)
  have h4 := h3.thread _ _ _ (.force _ 30000001 (by decide) (by decide) (by decide))
  have h5 := (h4.call _ _ true).next false trivial rfl
  have h6 := h5.next false trivial rfl
  have h7 := h6.next false trivial rfl
  have h8 := h7.next false trivial rfl
  have h9 := h8.otherSlots (set_zero_others (fun _ _ => rfl) _) fun _ => trivial
  exact ⟨_, (h9.next false trivial rfl).next false trivial rfl, fun needed =>
    absurd (needed.pending _ (.head _) (by decide)) (by decide)⟩

/-- A page is entered with its old LSN behind the last read of the dirty page table. -/
theorem truncate_misses_old_lsn :
    ∃ s, TruncationRun .logToFile (Careful .logToFile) (fun _ => True) s (.truncate 8) ∧
      ¬ Needed s 8 := by
  have h0 : TruncationRun .logToFile (Careful .logToFile) (fun _ => True) _ _ := .start
  have h1 := h0.thread _ _ _ (.begin _ 0 ⟨by decide, by decide⟩ (.inl rfl))
  have h2 := h1.thread _ _ _ (.reserve _ 0 56 false [7] ⟨by decide, by decide⟩ rfl
    (not_working rfl 0) nofun (by decide))
  have h3 := h2.thread _ _ _ (.write _ [] [] _ rfl rfl)
  have h4 := h3.thread _ _ _ (.record _ [] [] _ rfl rfl rfl)
  have h5 := (h4.call _ _ true).next false (fun _ => ⟨by decide, nofun⟩) rfl
  have h6 := h5.next false trivial rfl
  have h7 := h6.next false trivial rfl
  have h8 := h7.next false trivial rfl
  have h9 := h8.otherSlots (set_zero_others (set_zero_others (fun _ _ => rfl) _) _) fun _ => trivial
  have h10 := h9.next false trivial rfl
  have h11 := h10.next false trivial rfl
  have h12 := h11.next false trivial rfl
  have h13 := h12.next false ⟨fun _ => ⟨by decide, nofun⟩,
    noneMissed_slot_zero (set_zero_others (set_zero_others (fun _ _ => rfl) _) _) (by decide)⟩ rfl
  have h14 := h13.next false trivial rfl
  have h15 := h14.next false trivial rfl
  exact ⟨_, h15.thread _ _ _ (.apply _ [] [] _ 7 [] rfl rfl rfl true fun _ => ⟨trivial, rfl⟩),
    fun needed => absurd (needed.pages (7, -1) (.head _)) (by decide)⟩

end Stasis
