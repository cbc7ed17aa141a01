import Mathlib.Data.Fintype.Basic
import Stasis.TransactionTable
import Stasis.Util.Ringbuffer
import Stasis.Library.Runs

/-!
The slots of the transaction table, and the threads that use them.

A thread keeps the slots that it has taken from the table, and reserves them for its next
transactions. A slot changes hands by a compare and swap, and a transaction may be ended by any
thread. When a thread exits, a destructor gives back those of its slots that are reserved. A step
is what a thread does between two points at which others can run. `running` is no part of the
program: it records which slots have been given out by a begin and not yet been given back.
-/
namespace Stasis.Slots
open TransactionTable

/-- Where a thread is. A begin looks at the slots of the thread and then at all of them; `begun`
is between the begin and `stasis_log_begin_transaction`. A commit reads what to put into the
slot, then what is there, and then swaps. -/
inductive Call where
  | idle
  | fast (i : Nat)
  | slow (i : Int)
  | begun (xid : Int)
  | fetching (xid new : Int)
  | swapping (xid new seen : Int)
  | exiting (i : Nat)
  | exited
deriving DecidableEq, Repr

/-- The thread local state, which is empty before the first begin. -/
structure Local where
  lastEntry : Int
  indexes : List Int
  call : Call
deriving DecidableEq, Repr

structure State (Thread : Type) where
  tbl : TransactionTable
  threads : Thread → Local
  running : Int → Bool

variable {Thread : Type} [DecidableEq Thread]

def testAndSetEntry (tbl : TransactionTable) (i old new : Int) : Option TransactionTable :=
  if (tbl i).xid = old then some (tbl.set i { tbl i with xid := new }) else none

namespace State

def init : State Thread := ⟨TransactionTable.init, fun _ => ⟨0, [], .idle⟩, fun _ => false⟩

section
variable (s : State Thread)

def setLocal (t : Thread) (l : Local) : State Thread :=
  { s with threads := Function.update s.threads t l }

def setCall (t : Thread) (call : Call) : State Thread :=
  s.setLocal t { s.threads t with call := call }

/-- A slot is given out, or given back. -/
def setSlot (x : Int) (tbl : TransactionTable) (running : Bool) : State Thread :=
  { s with tbl := tbl, running := Function.update s.running x running }

section
variable (t : Thread)

/-- An iteration over the slots of the thread. -/
def nextFast (i : Nat) : Except Stop (State Thread) :=
  let l := s.threads t
  if i < l.indexes.length then
    match l.indexes[((1 + i + l.lastEntry) % l.indexes.length).toNat]? with
    | none => .error .fails
    | some x =>
      match testAndSetEntry s.tbl x reservedXtableXid pendingXtableXid with
      | some tbl =>
        .ok ((s.setSlot x tbl true).setLocal t { l with lastEntry := x, call := .begun x })
      | none => .ok (s.setCall t (.fast (i + 1)))
  else .ok (s.setCall t (.slow 0))

/-- An iteration over all slots. A begin that finds none returns. -/
def nextSlow (i : Int) : State Thread :=
  let l := s.threads t
  if i < maxTransactions then
    match testAndSetEntry s.tbl i invalidXtableXid pendingXtableXid with
    | some tbl =>
      (s.setSlot i (tbl.set i { tbl i with xidWhenFree := reservedXtableXid }) true).setLocal t
        { l with lastEntry := i, indexes := l.indexes ++ [i], call := .begun i }
    | none => s.setCall t (.slow (i + 1))
  else s.setCall t .idle

def next : Except Stop (State Thread) :=
  match (s.threads t).call with
  | .fast i => s.nextFast t i
  | .slow i => .ok (s.nextSlow t i)
  | _ => .error .waits

/-- `stasis_log_begin_transaction` -/
def start : Except Stop (State Thread) :=
  match (s.threads t).call with
  | .begun x =>
    .ok ({ s with tbl := s.tbl.set x { s.tbl x with
      xid := x, prevLSN := invalidLsn, recLSN := invalidLsn } }.setCall t .idle)
  | _ => .error .waits

def fetch : Except Stop (State Thread) :=
  match (s.threads t).call with
  | .fetching x new => .ok (s.setCall t (.swapping x new (s.tbl x).xid))
  | _ => .error .waits

def swap : Except Stop (State Thread) :=
  match (s.threads t).call with
  | .swapping x new seen =>
    match testAndSetEntry s.tbl x seen new with
    | some tbl => .ok ((s.setSlot x tbl false).setCall t .idle)
    | none => .error .fails
  | _ => .error .waits

end

def forget (x : Int) : Except Stop (State Thread) :=
  match testAndSetEntry s.tbl x x (s.tbl x).xidWhenFree with
  | some tbl => .ok (s.setSlot x tbl false)
  | none => if (s.tbl x).xid < 0 then .ok s else .error .fails

/-- An iteration of the destructor. -/
def destroy (t : Thread) : Except Stop (State Thread) :=
  match (s.threads t).call with
  | .exiting i =>
    match (s.threads t).indexes[i]? with
    | some x =>
      .ok ({ s with tbl := (testAndSetEntry s.tbl x reservedXtableXid
        invalidXtableXid).getD s.tbl }.setCall t (.exiting (i + 1)))
    | none => .ok (s.setCall t .exited)
  | _ => .error .waits

end

end State

inductive Op where
  | begin
  | next
  | start
  | commit (xid : Int)
  | fetch
  | swap
  | forget (xid : Int)
  | exit
  | destroy
deriving DecidableEq, Repr

def Op.run (s : State Thread) (t : Thread) : Op → Except Stop (State Thread)
  | begin => if (s.threads t).call = .idle then .ok (s.setCall t (.fast 0)) else .error .waits
  | next => s.next t
  | start => s.start t
  | commit x =>
    if (s.threads t).call = .idle then
      if InRange x then .ok (s.setCall t (.fetching x (s.tbl x).xidWhenFree)) else .error .fails
    else .error .waits
  | fetch => s.fetch t
  | swap => s.swap t
  | forget x =>
    if (s.threads t).call = .idle then
      if InRange x then s.forget x else .error .fails
    else .error .waits
  | exit => if (s.threads t).call = .idle then .ok (s.setCall t (.exiting 0)) else .error .waits
  | destroy => s.destroy t

/-- The call is the commit of a transaction. -/
def Call.Ends (x : Int) : Call → Prop
  | .fetching y _ => y = x
  | .swapping y _ _ => y = x
  | _ => False

instance (x : Int) : (call : Call) → Decidable (call.Ends x)
  | .fetching y _ => inferInstanceAs (Decidable (y = x))
  | .swapping y _ _ => inferInstanceAs (Decidable (y = x))
  | .idle | .fast _ | .slow _ | .begun _ | .exiting _ | .exited => isFalse id

/-- A transaction is ended once, after it has begun. -/
def Op.Allowed (s : State Thread) (_ : Thread) : Op → Prop
  | commit x => (s.tbl x).xid = x ∧ ∀ t, ¬(s.threads t).call.Ends x
  | forget x => (s.tbl x).xid = x ∧ ∀ t, ¬(s.threads t).call.Ends x
  | _ => True

/-- Moreover, the transactions that a thread has begun have ended when it exits. -/
def Op.Tidy (s : State Thread) (t : Thread) (op : Op) : Prop :=
  op.Allowed s t ∧ (op = .exit → ∀ x ∈ (s.threads t).indexes, (s.tbl x).xid = reservedXtableXid)

instance [Fintype Thread] (s : State Thread) (t : Thread) : (op : Op) → Decidable (op.Allowed s t)
  | .commit x => inferInstanceAs (Decidable ((s.tbl x).xid = x ∧ ∀ t, ¬(s.threads t).call.Ends x))
  | .forget x => inferInstanceAs (Decidable ((s.tbl x).xid = x ∧ ∀ t, ¬(s.threads t).call.Ends x))
  | .begin | .next | .start | .fetch | .swap | .exit | .destroy => isTrue trivial

instance [Fintype Thread] (s : State Thread) (t : Thread) (op : Op) : Decidable (op.Tidy s t) :=
  inferInstanceAs (Decidable (_ ∧ (_ → _)))

/-- The states of the runs in which every step has a property. -/
def Reached (Allowed : State Thread → Thread → Op → Prop) : State Thread → Prop :=
  Runs.Reached (fun s (step : Thread × Op) => step.2.run s step.1)
    (fun s step => Allowed s step.1 step.2) .init

/-- The slots that a thread has still in its hands. -/
def Local.pool (l : Local) : List Int :=
  match l.call with
  | .exiting i => l.indexes.drop i
  | .exited => []
  | .idle | .fast _ | .slow _ | .begun _ | .fetching _ _ | .swapping _ _ _ => l.indexes

end Stasis.Slots
