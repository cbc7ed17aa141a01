import Mathlib.Data.Fintype.Card
import Mathlib.Data.Int.Bitwise
import Stasis.Library.Linearizable
import Stasis.Library.Runs
import Stasis.Util.Ringbuffer

/-!
The hash table of `concurrentHash.c`, which has one latch for each bucket.

A step of a thread is the acquisition or the release of a latch, with what the thread does up to
the next one. The latches are recursive mutexes, kept apart from the keys and the values. The
functions that return a latched bucket to the caller are not modelled.

`now`, `calls` and `history` are no part of the program: they number the calls, and record them
with what they return.
-/
namespace Stasis.ConcurrentHash
open Linearizable Function

/-- The table has `2 ^ bits` buckets. `hash` is `hash6432shift`. -/
structure Config where
  bits : Nat
  hash : Int → Int

structure Bucket (V : Type) where
  key : Int
  val : Option V
deriving DecidableEq, Repr

/-- `hashtable_mode` -/
inductive Mode where
  | lookup
  | insert
  | tryinsert
  | remove
deriving DecidableEq, Repr

inductive Op (V : Type) where
  | lookup (p : Int)
  | insert (p : Int) (val : V)
  | testAndSet (p : Int) (val : V)
  | remove (p : Int)
deriving DecidableEq, Repr

namespace Config

def size (cfg : Config) : Nat := 2 ^ cfg.bits

def maxbucketid (cfg : Config) : Nat := cfg.size - 1

def hashtableWrap (cfg : Config) (p : Int) : Nat := (p.land cfg.maxbucketid).toNat

def hashtableFunc (cfg : Config) (key : Int) : Nat := cfg.hashtableWrap (cfg.hash key)

end Config

section Model
variable {T V : Type}

namespace Op

def p : Op V → Int
  | .lookup p => p
  | .insert p _ => p
  | .testAndSet p _ => p
  | .remove p => p

def val : Op V → Option V
  | .lookup _ => none
  | .insert _ val => some val
  | .testAndSet _ val => some val
  | .remove _ => none

def isRemove : Op V → Bool
  | .remove _ => true
  | _ => false

/-- The mode with which `hashtable_end_op` is called. -/
def endMode : Op V → Option V → Mode
  | .lookup _, _ => .lookup
  | .insert _ _, _ => .insert
  | .testAndSet _ _, ret => if ret.isSome then .lookup else .insert
  | .remove _, _ => .remove

end Op

/-- Where a thread is, named after what it does next. A thread that is `entering`, `advancing`,
`removing` or `skipping` acquires a latch, others release one. -/
inductive Pc (V : Type) where
  | idle
  | entering (op : Op V)
  | advancing (op : Op V) (idx numIncrs : Nat)
  | trailing (op : Op V) (b2 idx numIncrs : Nat)
  | removing (op : Op V) (ret : Option V) (idx2 idx : Nat)
  | skipping (op : Op V) (ret : Option V) (idx2 idx : Nat)
  | skipped (op : Op V) (ret : Option V) (idx2 b1 idx : Nat)
  | compacted (op : Op V) (ret : Option V) (idx2 idx : Nat)
  | cleared (op : Op V) (ret : Option V) (idx2 idx : Nat)
  | finishing (op : Op V) (ret : Option V) (idx : Nat)
deriving DecidableEq, Repr

def Pc.op : Pc V → Option (Op V)
  | .idle => none
  | .entering op => some op
  | .advancing op _ _ => some op
  | .trailing op _ _ _ => some op
  | .removing op _ _ _ => some op
  | .skipping op _ _ _ => some op
  | .skipped op _ _ _ _ => some op
  | .compacted op _ _ _ => some op
  | .cleared op _ _ _ => some op
  | .finishing op _ _ => some op

/-- The bucket that a removal has to overwrite. -/
def Pc.anchor : Pc V → Option Nat
  | .removing _ _ idx2 _ => some idx2
  | .skipping _ _ idx2 _ => some idx2
  | .skipped _ _ idx2 _ _ => some idx2
  | .compacted _ _ _ idx => some idx
  | _ => none

/-- The latches map to their owners, with the number of times that they are acquired. -/
structure World (T V : Type) where
  buckets : Nat → Bucket V
  muts : Nat → Option (T × Nat)
  pcs : T → Pc V
  now : T → Nat
  calls : Nat
  history : List (Event (Op V) (Option V))

def World.init : World T V := ⟨fun _ => ⟨-1, none⟩, fun _ => none, fun _ => .idle, fun _ => 0, 0, []⟩

section
variable (cfg : Config) (buckets : Nat → Bucket V) (op : Op V)

/-- The beginning of `hashtable_end_op`, where the bucket at `idx` is latched. -/
def hashtableEndOp (ret : Option V) (idx : Nat) : (Nat → Bucket V) × Pc V :=
  let mode := op.endMode ret
  if mode = .insert ∨ mode = .tryinsert ∧ ret.isNone then
    (update buckets idx ⟨op.p, op.val⟩, .finishing op ret idx)
  else if mode = .remove ∧ ret.isSome then
    (buckets, .removing op ret idx (cfg.hashtableWrap (idx + 1)))
  else (buckets, .finishing op ret idx)

/-- A turn of the loop of `hashtable_begin_op`, up to the next latch. -/
def beginOpLoop (idx numIncrs : Nat) : Except Stop ((Nat → Bucket V) × Pc V) :=
  let b1 := buckets idx
  if ¬ numIncrs < cfg.maxbucketid / 4 then .error .fails
  else if b1.key = op.p then
    if b1.val.isNone then .error .fails else .ok (hashtableEndOp cfg buckets op b1.val idx)
  else if b1.val.isNone then
    if b1.key ≠ -1 then .error .fails else .ok (hashtableEndOp cfg buckets op none idx)
  else .ok (buckets, .advancing op idx (numIncrs + 1))

/-- A turn of the loop of `hashtable_end_op`, up to the next latch. -/
def endOpLoop (ret : Option V) (idx2 idx : Nat) : Except Stop ((Nat → Bucket V) × Pc V) :=
  let b1 := buckets idx
  if b1.val.isNone then
    if b1.key ≠ -1 then .error .fails
    else .ok (update buckets idx2 ⟨-1, none⟩, .cleared op ret idx2 idx)
  else
    let newidx := cfg.hashtableFunc b1.key
    if cfg.hashtableWrap ((idx2 : Int) - newidx) > cfg.maxbucketid / 2 then
      .ok (buckets, .skipping op ret idx2 idx)
    else .ok (update buckets idx2 b1, .compacted op ret idx2 idx)

end

variable [DecidableEq T]

section
variable (muts : Nat → Option (T × Nat)) (t : T) (i : Nat)

/-- `pthread_mutex_lock` -/
def lock : Except Stop (Nat → Option (T × Nat)) :=
  match muts i with
  | none => .ok (update muts i (some (t, 1)))
  | some (owner, depth) =>
    if owner = t then .ok (update muts i (some (t, depth + 1))) else .error .waits

/-- `pthread_mutex_unlock` -/
def unlock : Nat → Option (T × Nat) :=
  match muts i with
  | none => muts
  | some (owner, depth) =>
    if owner = t then
      update muts i (if depth ≤ 1 then none else some (t, depth - 1))
    else muts

end

namespace World

def setPc (w : World T V) (t : T) (pc : Pc V) : World T V :=
  { w with pcs := update w.pcs t pc }

def step (cfg : Config) (w : World T V) (t : T) : Except Stop (World T V) :=
  match w.pcs t with
  | .idle => .error .waits
  | .entering op => do
      let idx := cfg.hashtableFunc op.p
      let muts ← lock w.muts t idx
      let (buckets, pc) ← beginOpLoop cfg w.buckets op idx 0
      .ok { w.setPc t pc with buckets := buckets, muts := muts }
  | .advancing op b2 numIncrs => do
      let idx := cfg.hashtableWrap (b2 + 1)
      let muts ← lock w.muts t idx
      .ok { w.setPc t (.trailing op b2 idx numIncrs) with muts := muts }
  | .trailing op b2 idx numIncrs => do
      let (buckets, pc) ← beginOpLoop cfg w.buckets op idx numIncrs
      .ok { w.setPc t pc with buckets := buckets, muts := unlock w.muts t b2 }
  | .removing op ret idx2 idx => do
      let muts ← lock w.muts t idx
      let (buckets, pc) ← endOpLoop cfg w.buckets op ret idx2 idx
      .ok { w.setPc t pc with buckets := buckets, muts := muts }
  | .skipping op ret idx2 b1 => do
      let idx := cfg.hashtableWrap (b1 + 1)
      let muts ← lock w.muts t idx
      .ok { w.setPc t (.skipped op ret idx2 b1 idx) with muts := muts }
  | .skipped op ret idx2 b1 idx => do
      let (buckets, pc) ← endOpLoop cfg w.buckets op ret idx2 idx
      .ok { w.setPc t pc with buckets := buckets, muts := unlock w.muts t b1 }
  | .compacted op ret idx2 idx =>
    .ok { w.setPc t (.removing op ret idx (cfg.hashtableWrap (idx + 1))) with
      muts := unlock w.muts t idx2 }
  | .cleared op ret idx2 idx =>
    .ok { w.setPc t (.finishing op ret idx) with muts := unlock w.muts t idx2 }
  | .finishing _ ret idx =>
    .ok { w.setPc t .idle with
      muts := unlock w.muts t idx
      history := w.history ++ [.ret (w.now t) ret] }

/-- The assertion is that of `hashtable_begin_op`. -/
def call (w : World T V) (t : T) (op : Op V) : Except Stop (World T V) :=
  if op.p = -1 then .error .fails
  else .ok { w.setPc t (.entering op) with
    now := update w.now t w.calls
    calls := w.calls + 1
    history := w.history ++ [.call w.calls op] }

end World

inductive Action (T V : Type) where
  | call (t : T) (op : Op V)
  | step (t : T)
deriving DecidableEq, Repr

def run (cfg : Config) (w : World T V) : Action T V → Except Stop (World T V)
  | .call t op => w.call t op
  | .step t => w.step cfg t

section Counts
variable [Fintype T]

/-- The keys that are present: those of buckets that no removal has to overwrite. -/
def World.present (cfg : Config) (w : World T V) : Finset Int :=
  ((Finset.range cfg.size).filter fun b =>
    (w.buckets b).val.isSome ∧ ∀ t, (w.pcs t).anchor ≠ some b).image fun b => (w.buckets b).key

/-- The threads that have called `hashtable_remove` and not returned. -/
def World.removals (w : World T V) : Finset T :=
  Finset.univ.filter fun t => (w.pcs t).op.any Op.isRemove

def Room (cfg : Config) (w : World T V) : Prop :=
  (w.present cfg).card + w.removals.card < cfg.maxbucketid / 4

/-- A thread makes one call at a time, and there is room. -/
def Allowed (cfg : Config) (w : World T V) : Action T V → Prop
  | .call t op => w.pcs t = .idle ∧ op.p ≠ -1 ∧ Room cfg w
  | .step t => w.pcs t ≠ .idle ∧ Room cfg w

end Counts

/-- What the operations do to a map. -/
def apply (m : Int → Option V) : Op V → (Int → Option V) × Option V
  | .lookup p => (m, m p)
  | .insert p val => (update m p (some val), m p)
  | .testAndSet p val => (if (m p).isSome then m else update m p (some val), m p)
  | .remove p => (update m p none, m p)

end Model

end Stasis.ConcurrentHash
