import Stasis.TransactionTable

/-!
Log truncation among other threads.

The shared state is what stasis_truncation_truncate reads: the transaction table,
the dirty page table, the log's watermarks. Other threads log entries, and an
entry goes through several steps before the thread has done with it. An update
records its LSN in the transaction's slot after it is written, dirties its
pages, and is marked done. A CLR is marked done right after it is written, and
its pages are dirtied only then. The truncating thread takes one step for each
of its reads, so every other thread can get in between.
-/
namespace Stasis
open TransactionTable

def lsnMax : Int := 9223372036854775807
def targetLogSize : Int := 1024 * 1024 * 50
def minIncrementalTruncation : Int := 1024 * 1024 * 25

/-- How far a thread has come with an entry that it logs. -/
inductive Stage where
  | reserved
  | written
  | recorded
  | done
  deriving DecidableEq, Repr

/-- An entry between its reservation and the end of the call that logged it, with the
pages that the call has still to dirty. -/
structure InFlight where
  lsn : Int
  xid : Int
  isClr : Bool
  pages : List Int
  stage : Stage
  deriving DecidableEq, Repr

structure Shared where
  tbl : TransactionTable
  nextAvailableLSN : Int
  inFlight : List InFlight
  firstUnstableLSN : Int
  pageLSN : Int → Int
  dirtyPages : List (Int × Int)
  truncationPoint : Int

namespace Shared

def start (t : LogType) : Shared :=
  ⟨init, t.firstLSN, [], t.firstLSN, fun _ => -1, [], t.firstLSN⟩

/-- first_pending_lsn: the safe-writes log knows which entries are not done, the file
pool which ones are not written, and the in-memory log does not keep track. -/
def firstPendingLsn (t : LogType) (s : Shared) : Int :=
  match t with
  | .logToMemory => invalidLsn
  | .logToFile =>
    (((s.inFlight.filter fun f => f.stage ≠ .done).map InFlight.lsn).min?).getD
      s.nextAvailableLSN
  | .logToDir =>
    (((s.inFlight.filter fun f => f.stage = .reserved).map InFlight.lsn).min?).getD
      s.nextAvailableLSN

def dirtyPageTableMinRecLSN (s : Shared) : Int :=
  ((s.dirtyPages.map Prod.snd).min?).getD lsnMax

/-- Write the LSN to the page, and put a clean page into the dirty page table. An operation
that does the latter itself while it runs, as alloc_boundary_tag, enters the LSN that the
page had before. -/
def setDirty (s : Shared) (p lsn : Int) (early : Bool) : Shared :=
  let newLSN := if s.pageLSN p < lsn then lsn else s.pageLSN p
  { s with
    pageLSN := Function.update s.pageLSN p newLSN
    dirtyPages := if p ∈ s.dirtyPages.map Prod.fst then s.dirtyPages
      else (p, if early then s.pageLSN p else newLSN) :: s.dirtyPages }

def setClean (s : Shared) (p : Int) : Shared :=
  { s with dirtyPages := s.dirtyPages.filter fun d => d.1 ≠ p }

end Shared

/-- A thread is in the middle of a call for transaction `xid`. -/
def Shared.Working (s : Shared) (xid : Int) : Prop :=
  ∃ f ∈ s.inFlight, f.xid = xid

/-- Steps of the other threads. `Early` says whether operations may enter pages with their
old LSN; no undo does. -/
inductive ThreadStep (Early : Prop) : Shared → Shared → Prop
  | begin (s : Shared) (xid : Int) (range : InRange xid)
      (free : (s.tbl xid).xid = invalidXtableXid ∨ (s.tbl xid).xid = reservedXtableXid) :
      ThreadStep Early s { s with
        tbl := s.tbl.set xid ⟨xid, invalidLsn, invalidLsn, reservedXtableXid⟩ }
  | reserve (s : Shared) (xid size : Int) (isClr : Bool) (pages : List Int)
      (range : InRange xid) (active : (s.tbl xid).xid = xid) (idle : ¬ s.Working xid)
      (started : isClr = true → (s.tbl xid).prevLSN ≠ invalidLsn) (positive : 0 < size) :
      ThreadStep Early s { s with
        nextAvailableLSN := s.nextAvailableLSN + size
        inFlight := ⟨s.nextAvailableLSN, xid, isClr, pages, .reserved⟩ :: s.inFlight }
  | write (s : Shared) (before after : List InFlight) (f : InFlight)
      (held : s.inFlight = before ++ f :: after) (stage : f.stage = .reserved) :
      ThreadStep Early s { s with inFlight := before ++ { f with stage := .written } :: after }
  | record (s : Shared) (before after : List InFlight) (f : InFlight)
      (held : s.inFlight = before ++ f :: after) (stage : f.stage = .written)
      (kind : f.isClr = false) :
      ThreadStep Early s { s with
        tbl := s.tbl.logged f.xid f.lsn
        inFlight := before ++ { f with stage := .recorded } :: after }
  | apply (s : Shared) (before after : List InFlight) (f : InFlight) (p : Int)
      (pages : List Int) (held : s.inFlight = before ++ f :: after)
      (stage : f.stage = if f.isClr then .done else .recorded) (next : f.pages = p :: pages)
      (early : Bool) (allowed : early = true → Early ∧ f.isClr = false) :
      ThreadStep Early s { s.setDirty p f.lsn early with
        inFlight := before ++ { f with pages := pages } :: after }
  | updateDone (s : Shared) (before after : List InFlight) (f : InFlight)
      (held : s.inFlight = before ++ f :: after) (kind : f.isClr = false)
      (stage : f.stage = .recorded) (applied : f.pages = []) :
      ThreadStep Early s { s with inFlight := before ++ after }
  | clrDone (s : Shared) (before after : List InFlight) (f : InFlight)
      (held : s.inFlight = before ++ f :: after) (kind : f.isClr = true)
      (stage : f.stage = .written) :
      ThreadStep Early s { s with inFlight := before ++ { f with stage := .done } :: after }
  | clrApplied (s : Shared) (before after : List InFlight) (f : InFlight)
      (held : s.inFlight = before ++ f :: after) (kind : f.isClr = true)
      (stage : f.stage = .done) (applied : f.pages = []) :
      ThreadStep Early s { s with inFlight := before ++ after }
  | force (s : Shared) (lsn : Int) (later : s.firstUnstableLSN ≤ lsn)
      (le : lsn ≤ s.nextAvailableLSN)
      (written : ∀ f ∈ s.inFlight, f.stage = .reserved → lsn ≤ f.lsn) :
      ThreadStep Early s { s with firstUnstableLSN := lsn }
  | clean (s : Shared) (p : Int) (wal : s.pageLSN p < s.firstUnstableLSN) :
      ThreadStep Early s (s.setClean p)
  | finish (s : Shared) (xid : Int) (range : InRange xid) (active : (s.tbl xid).xid = xid)
      (idle : ¬ s.Working xid) :
      ThreadStep Early s { s with
        tbl := s.tbl.set xid { s.tbl xid with xid := (s.tbl xid).xidWhenFree } }

/-- Where stasis_truncation_truncate stands, with the values of its variables. The
flush of the dirty pages is in the steps of other threads; the point only says
whether the flush was repeated after EAGAIN. -/
inductive TruncationPoint where
  | returned (ret : Bool)
  | readApplied (force : Bool)
  | readPages (force : Bool) (applied : Int)
  | readXid (force : Bool) (applied pageRec xactRec : Int) (i : Nat)
  | readRecLSN (force : Bool) (applied pageRec xactRec : Int) (i : Nat)
  | readFlushed (force : Bool) (applied pageRec xactRec : Int)
  | compare (force : Bool) (applied pageRec xactRec flushed : Int)
  | reconsider (force : Bool) (xactRec flushed logTrunc : Int)
  | rereadApplied (xactRec flushed : Int) (again : Bool)
  | flush (applied xactRec flushed : Int) (again : Bool)
  | rereadPages (applied xactRec flushed : Int)
  | truncate (recLsn : Int)
  deriving DecidableEq, Repr

/-- One step of stasis_truncation_truncate. `eagain` is what the first flush returns. -/
def truncationStep (t : LogType) (eagain : Bool) (s : Shared) :
    TruncationPoint → Shared × TruncationPoint
  | .returned ret => (s, .returned ret)
  | .readApplied force => (s, .readPages force (s.firstPendingLsn t))
  | .readPages force applied =>
    (s, .readXid force applied s.dirtyPageTableMinRecLSN lsnMax 0)
  | .readXid force applied pageRec xactRec i =>
    if (i : Int) < maxTransactions then
      if 0 ≤ (s.tbl i).xid then (s, .readRecLSN force applied pageRec xactRec i)
      else (s, .readXid force applied pageRec xactRec (i + 1))
    else (s, .readFlushed force applied pageRec xactRec)
  | .readRecLSN force applied pageRec xactRec i =>
    let recLSN := (s.tbl i).recLSN
    (s, .readXid force applied pageRec
      (if recLSN ≠ -1 ∧ recLSN < xactRec then recLSN else xactRec) (i + 1))
  | .readFlushed force applied pageRec xactRec =>
    (s, .compare force applied pageRec xactRec s.firstUnstableLSN)
  | .compare force applied pageRec xactRec flushed =>
    let recLsn := min (min (min pageRec xactRec) flushed) applied
    let logTrunc := s.truncationPoint
    if force ∨ xactRec - logTrunc > minIncrementalTruncation then
      if recLsn - logTrunc > minIncrementalTruncation then (s, .truncate recLsn)
      else (s, .reconsider force xactRec flushed logTrunc)
    else (s, .returned false)
  | .reconsider force xactRec flushed logTrunc =>
    if force ∨ s.firstUnstableLSN - logTrunc > 2 * targetLogSize then
      (s, .rereadApplied xactRec flushed false)
    else (s, .returned false)
  | .rereadApplied xactRec flushed again =>
    (s, .flush (s.firstPendingLsn t) xactRec flushed again)
  | .flush applied xactRec flushed again =>
    if eagain ∧ ¬ again then (s, .rereadApplied xactRec flushed true)
    else (s, .rereadPages applied xactRec flushed)
  | .rereadPages applied xactRec flushed =>
    let pageRec := s.dirtyPageTableMinRecLSN
    (s, .truncate (min (min (min pageRec xactRec) flushed) applied))
  | .truncate recLsn =>
    ({ s with truncationPoint := max s.truncationPoint recLsn }, .returned true)

/-- The runs in which every step of the truncating thread is taken in a state that
`Careful` allows, and pages are entered with their old LSN at the points of `Early` only. -/
inductive TruncationRun (t : LogType) (Careful : Shared → TruncationPoint → Prop)
    (Early : TruncationPoint → Prop) : Shared → TruncationPoint → Prop
  | start : TruncationRun t Careful Early (Shared.start t) (.returned false)
  | thread (s s' : Shared) (pt : TruncationPoint) (run : TruncationRun t Careful Early s pt)
      (step : ThreadStep (Early pt) s s') : TruncationRun t Careful Early s' pt
  | call (s : Shared) (ret force : Bool) (run : TruncationRun t Careful Early s (.returned ret)) :
      TruncationRun t Careful Early s (.readApplied force)
  | truncation (s : Shared) (pt : TruncationPoint) (eagain : Bool)
      (run : TruncationRun t Careful Early s pt) (careful : Careful s pt) :
      TruncationRun t Careful Early (truncationStep t eagain s pt).1
        (truncationStep t eagain s pt).2

/-- Truncating at `recLsn` keeps what abort and recovery need. -/
structure Needed (s : Shared) (recLsn : Int) : Prop where
  transactions : ∀ i, InRange i → (s.tbl i).xid = i → (s.tbl i).prevLSN ≠ invalidLsn →
    recLsn ≤ (s.tbl i).recLSN
  pages : ∀ d ∈ s.dirtyPages, recLsn ≤ d.2
  pending : ∀ f ∈ s.inFlight, f.stage ≠ .done → recLsn ≤ f.lsn

end Stasis
