import Mathlib
import Stasis.Operations.LinkedList

/-!
The linear hash table of `linearHashNTA.c`, with keys and values of fixed sizes.

The buckets are linked lists in an array list, of which the table uses the first
`nextSplit + 2^(bits - 1)`. An insertion into a table that is too full splits the bucket
`nextSplit`, and then goes on with the new hash function. The header of the table is read into
a copy, which an insertion writes back at its end.
-/
namespace Stasis.LinearHash
open LinkedList

/-- `stasis_util_two_to_the`, which shifts an int: there is no result above 2^30. -/
def twoToThe (x : Nat) : Nat := if x < 31 then 2 ^ x else 0

def hashInitBits : Nat := 4

/-- `HASH_INIT_ARRAY_LIST_COUNT` -/
def hashInitCount : Nat := twoToThe hashInitBits

def stasisLinearHash (unmixed : UInt32) (tableBits nextExtension : Nat) : Nat :=
  let oldTableLength := twoToThe (tableBits - 1)
  let ret := unmixed.toNat &&& (oldTableLength - 1)
  if ret < nextExtension then unmixed.toNat &&& (twoToThe tableBits - 1) else ret

/-- What the table depends on: the choices of `Talloc`, which takes records that are free, the
hash function, the number of entries that `n` buckets are for, which is `n * HASH_FILL_FACTOR`
in floating point, and the fuel of the loops. -/
structure Env (K : Type) where
  pick : Picks
  fresh : ∀ t ids, pick t ids ∉ ids
  hash : K → UInt32
  fill : Nat → Int
  fuel : Nat

/-- `lladd_hash_header` -/
structure Header where
  nextSplit : Nat
  bits : Nat
  numEntries : Int
deriving DecidableEq, Repr

/-- `length` is that of the array list of buckets. -/
structure Table (K V : Type) where
  lhh : Header
  length : Nat
  st : Store K V

def Header.numBuckets (lhh : Header) : Nat := lhh.nextSplit + twoToThe (lhh.bits - 1)

/-- What a nested top action logs for its undo: the key, and the value that is removed. -/
inductive Logged (K V : Type) where
  | insert (key : K)
  | remove (key : K) (value : V)
deriving DecidableEq, Repr

section Model
variable {K V : Type}

/-- The new slots are lists without entries. -/
def Table.tarrayListExtend (t : Table K V) (slots : Nat) : Table K V :=
  { t with
    length := t.length + slots
    st := { t.st with records := fun rid =>
      match rid with
      | .bucket slot =>
        if t.length ≤ slot ∧ slot < t.length + slots then some .empty else t.st.records rid
      | .record _ => t.st.records rid } }

def thashCreate : Table K V :=
  Table.tarrayListExtend ⟨⟨0, hashInitBits, 0⟩, 0, ⟨fun _ => none, [], 0⟩⟩ hashInitCount

def Env.bucketOf (env : Env K) (lhh : Header) (key : K) : Nat :=
  stasisLinearHash (env.hash key) lhh.bits lhh.nextSplit

variable [DecidableEq K]

/-- The loop of the split: entries that the new hash function does not leave in the old bucket
are moved. -/
def splitLoop (env : Env K) (lhh : Header) (oldBucket newBucket : Nat) :
    Nat → Store K V → Iterator → Except Stop (Store K V)
  | 0, _, _ => .error .waits
  | fuel + 1, st, it => do
      let (it, pair) ← tlinkedListNext st it
      match pair with
      | none => .ok st
      | some (key, value) =>
        if env.bucketOf lhh key ≠ oldBucket then do
          let (st, _) ← tlinkedListRemove env.fuel st (.bucket oldBucket) key
          let st ← insertHelper env.pick st (.bucket newBucket) key value
          splitLoop env lhh oldBucket newBucket fuel st it
        else splitLoop env lhh oldBucket newBucket fuel st it

def Header.split (lhh : Header) : Header :=
  if lhh.nextSplit < twoToThe (lhh.bits - 1) - 1 then { lhh with nextSplit := lhh.nextSplit + 1 }
  else { lhh with nextSplit := 0, bits := lhh.bits + 1 }

def thashSplitBucket (env : Env K) (t : Table K V) (lhh : Header) :
    Except Stop (Table K V × Header) := do
  let oldBucket := lhh.nextSplit
  let newBucket := oldBucket + twoToThe (lhh.bits - 1)
  let t := if newBucket % hashInitCount = 0 then t.tarrayListExtend hashInitCount else t
  let lhh := lhh.split
  let st ← splitLoop env lhh oldBucket newBucket env.fuel t.st
    (tlinkedListIterator (.bucket oldBucket))
  .ok ({ t with st := st }, lhh)

section
variable (env : Env K) (t : Table K V) (key : K)

/-- `__ThashInsert` -/
def thashInsertInner (value : V) : Except Stop (Table K V × Bool) := do
  let lhh := { t.lhh with numEntries := t.lhh.numEntries + 1 }
  let (t, lhh) ←
    if lhh.numEntries > env.fill lhh.numBuckets then thashSplitBucket env t lhh else .ok (t, lhh)
  let bucket := Rid.bucket (env.bucketOf lhh key)
  let (st, ret) ← tlinkedListRemove env.fuel t.st bucket key
  let st ← insertHelper env.pick st bucket key value
  let lhh := if ret then { lhh with numEntries := lhh.numEntries - 1 } else lhh
  .ok ({ t with lhh := lhh, st := st }, ret)

def thashLookup : Except Stop (Option V) :=
  tlinkedListFind env.fuel t.st (.bucket (env.bucketOf t.lhh key)) key

/-- `__ThashRemove` -/
def thashRemoveInner : Except Stop (Table K V × Bool) := do
  let lhh := { t.lhh with numEntries := t.lhh.numEntries - 1 }
  let (st, ret) ← tlinkedListRemove env.fuel t.st (.bucket (env.bucketOf lhh key)) key
  .ok ({ t with lhh := lhh, st := st }, ret)

/-- The last component is what is logged. -/
def thashRemove : Except Stop (Table K V × Bool × List (Logged K V)) := do
  let found ← thashLookup env t key
  match found with
  | none => .ok (t, false, [])
  | some value => do
      let (t, ret) ← thashRemoveInner env t key
      .ok (t, ret, [.remove key value])

def thashInsert (value : V) : Except Stop (Table K V × Bool × List (Logged K V)) := do
  let (t, ret, logged) ← thashRemove env t key
  let (t, _) ← thashInsertInner env t key value
  .ok (t, ret, logged ++ [.insert key])

end

end Model

/-- `lladd_hash_iterator` -/
structure HashIterator where
  bucket : Nat
  numBuckets : Nat
  it : Iterator
deriving DecidableEq, Repr

section Iterate
variable {K V : Type}

def thashIterator (t : Table K V) : HashIterator :=
  ⟨0, t.lhh.numBuckets, tlinkedListIterator (.bucket 0)⟩

/-- Buckets without further entries are passed over; there are fewer of them than buckets. -/
def thashNext (t : Table K V) : Nat → HashIterator → Except Stop (Option (HashIterator × (K × V)))
  | 0, _ => .error .waits
  | turns + 1, hit => do
      let (it, pair) ← tlinkedListNext t.st hit.it
      match pair with
      | some pair => .ok (some ({ hit with it := it }, pair))
      | none =>
        if hit.bucket + 1 < hit.numBuckets then
          thashNext t turns ⟨hit.bucket + 1, hit.numBuckets,
            tlinkedListIterator (.bucket (hit.bucket + 1))⟩
        else .ok none

/-- The pairs that a pass over the table returns. -/
def thashPass (t : Table K V) : Nat → HashIterator → Except Stop (List (K × V))
  | 0, _ => .error .waits
  | fuel + 1, hit => do
      let next ← thashNext t hit.numBuckets hit
      match next with
      | none => .ok []
      | some (hit, pair) => do
          let rest ← thashPass t fuel hit
          .ok (pair :: rest)

end Iterate

end Stasis.LinearHash
