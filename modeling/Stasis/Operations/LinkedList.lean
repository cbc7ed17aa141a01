import Stasis.Library.Chains
import Stasis.Library.Fallible
import Stasis.Util.Ringbuffer

/-!
The linked lists of `linkedListNTA.c`, with keys and values of fixed sizes.

The first entry of a list is a record that stays where it is, and the others are allocated.
An insertion puts its entry behind the first one. When the first entry is removed, the second
one is copied over it, and an iterator that has returned the first entry starts again. The
loops have fuel, since they follow the links between the records.
-/
namespace Stasis.LinkedList
open Chains

/-- A slot of the array list of buckets, or a record from `Talloc`. -/
inductive Rid where
  | bucket (slot : Nat)
  | record (id : Nat)
deriving DecidableEq, Repr

/-- The size of the link to the next entry is 0 in a list without entries, and -1, which is
`none` here, in the last entry. -/
inductive Entry (K V : Type) where
  | empty
  | entry (next : Option Rid) (key : K) (value : V)
deriving DecidableEq, Repr

/-- `used` are the records that are allocated, and `clock` counts the allocations. -/
structure Store (K V : Type) where
  records : Rid → Option (Entry K V)
  used : List Nat
  clock : Nat

/-- How `Talloc` chooses records, over time. -/
abbrev Picks := Nat → List Nat → Nat

section Model
variable {K V : Type}

namespace Store

section
variable (st : Store K V) (rid : Rid)

def put (entry : Option (Entry K V)) : Store K V :=
  { st with records := Function.update st.records rid entry }

def tread : Except Stop (Entry K V) :=
  match st.records rid with
  | some entry => .ok entry
  | none => .error .fails

def tset (entry : Entry K V) : Except Stop (Store K V) :=
  match st.records rid with
  | some _ => .ok (st.put rid (some entry))
  | none => .error .fails

end

/-- The contents of the new record are left to the caller. -/
def talloc (pick : Picks) (st : Store K V) : Store K V × Rid :=
  let id := pick st.clock st.used
  ({ st.put (.record id) (some .empty) with
     used := id :: st.used
     clock := st.clock + 1 }, .record id)

def tdealloc (st : Store K V) (rid : Rid) : Except Stop (Store K V) :=
  match st.records rid, rid with
  | some _, .record id => .ok { st.put rid none with used := st.used.erase id }
  | _, _ => .error .fails

end Store

/-- `stasis_linked_list_insert_helper` -/
def insertHelper (pick : Picks) (st : Store K V) (list : Rid) (key : K) (value : V) :
    Except Stop (Store K V) := do
  let entry ← st.tread list
  match entry with
  | .empty => st.tset list (.entry none key value)
  | .entry next key0 value0 =>
    let (st, newRid) := st.talloc pick
    let st ← st.tset newRid (.entry next key value)
    st.tset list (.entry (some newRid) key0 value0)

def tlinkedListCreate (pick : Picks) (st : Store K V) : Except Stop (Store K V × Rid) := do
  let (st, ret) := st.talloc pick
  let st ← st.tset ret .empty
  .ok (st, ret)

/-- The loop of `TlinkedListDelete` reads the record that its variable `nextEntry` names, which
is never set: `nextEntry` is what the variable holds in each round. -/
def deleteLoop (nextEntry : Nat → Rid) : Nat → Store K V → Entry K V → Except Stop (Store K V)
  | 0, _, _ => .error .waits
  | _ + 1, st, .entry none _ _ => .ok st
  | fuel + 1, st, _ => do
      let entry ← st.tread (nextEntry fuel)
      match entry with
      | .empty => .error .fails
      | .entry next _ _ =>
        if next = some (nextEntry fuel) then do
          let st ← st.tdealloc (nextEntry fuel)
          deleteLoop nextEntry fuel st entry
        else .error .fails

def tlinkedListDelete (nextEntry : Nat → Rid) (fuel : Nat) (st : Store K V) (list : Rid) :
    Except Stop (Store K V) := do
  let entry ← st.tread list
  let st ← st.tdealloc list
  match entry with
  | .empty => .ok st
  | .entry .. => deleteLoop nextEntry fuel st entry

variable [DecidableEq K]

/-- An entry that matches is the last one looked at, but the one behind it is read too. -/
def findLoop (st : Store K V) (key : K) : Nat → Entry K V → Except Stop (Option V)
  | 0, _ => .error .waits
  | _ + 1, .empty => .error .fails
  | _ + 1, .entry none key0 value => .ok (if key0 = key then some value else none)
  | fuel + 1, .entry (some next) key0 value => do
      let entry ← st.tread next
      if key0 = key then .ok (some value) else findLoop st key fuel entry

def tlinkedListFind (fuel : Nat) (st : Store K V) (list : Rid) (key : K) :
    Except Stop (Option V) := do
  let entry ← st.tread list
  match entry with
  | .empty => .ok none
  | entry => findLoop st key fuel entry

/-- The loop of `stasis_linked_list_remove_helper` behind the first entry. -/
def removeLoop (st : Store K V) (key : K) :
    Nat → Rid → Rid → Entry K V → Except Stop (Store K V × Bool)
  | 0, _, _, _ => .error .waits
  | _ + 1, _, _, .empty => .error .fails
  | fuel + 1, oldLastRead, lastRead, .entry next key0 _ =>
    if key0 = key then do
      let entry2 ← st.tread oldLastRead
      match entry2 with
      | .empty => .error .fails
      | .entry _ key2 value2 =>
        let st ← st.tset oldLastRead (.entry next key2 value2)
        let st ← st.tdealloc lastRead
        .ok (st, true)
    else
      match next with
      | none => .ok (st, false)
      | some rid => do
          let entry ← st.tread rid
          removeLoop st key fuel lastRead rid entry

section
variable (fuel : Nat) (st : Store K V) (list : Rid) (key : K)

/-- `stasis_linked_list_remove_helper` -/
def removeHelper : Except Stop (Store K V × Bool) := do
  let entry ← st.tread list
  match entry with
  | .empty => .ok (st, false)
  | .entry next key0 _ =>
    if key0 = key then
      match next with
      | none => do
          let st ← st.tset list .empty
          .ok (st, true)
      | some rid => do
          let entry2 ← st.tread rid
          let st ← st.tdealloc rid
          let st ← st.tset list entry2
          .ok (st, true)
    else
      match next with
      | none => .ok (st, false)
      | some rid => do
          let entry ← st.tread rid
          removeLoop st key fuel list rid entry

def tlinkedListRemove : Except Stop (Store K V × Bool) := do
  let found ← tlinkedListFind fuel st list key
  match found with
  | none => .ok (st, false)
  | some _ => do
      let (st, _) ← removeHelper fuel st list key
      .ok (st, true)

end

/-- An entry that was found is left where it is. For one that was not, the insertion reads the list
and then copies -1 bytes from a null pointer. -/
def tlinkedListMove (fuel : Nat) (st : Store K V) (startList endList : Rid) (key : K) :
    Except Stop (Store K V × Bool) := do
  let valueSize ← tlinkedListFind fuel st startList key
  if valueSize.isSome then .ok (st, false)
  else do
    let (st, _) ← tlinkedListRemove fuel st startList key
    let _ ← st.tread endList
    .error .fails

end Model

/-- The values -1, 1 and 0 of `first`: nothing was returned, or the first entry was, or a later
one. -/
inductive First where
  | start
  | root
  | later
deriving DecidableEq, Repr

structure Iterator where
  next : Option Rid
  first : First
  listRoot : Rid
deriving DecidableEq, Repr

section Iterate
variable {K V : Type}

def tlinkedListIterator (list : Rid) : Iterator := ⟨some list, .start, list⟩

/-- The end of `TlinkedListNext`, at an entry. -/
def readNext (st : Store K V) (it : Iterator) (rid : Rid) :
    Except Stop (Iterator × Option (K × V)) := do
  let entry ← st.tread rid
  match entry with
  | .empty => .ok (it, none)
  | .entry next key value => .ok ({ it with next := next }, some (key, value))

/-- The iterator starts again when the first entry leads to another one than it did. -/
def tlinkedListNext (st : Store K V) (it : Iterator) : Except Stop (Iterator × Option (K × V)) :=
  match it.next with
  | none => .ok (it, none)
  | some rid =>
    match it.first with
    | .start => readNext st { it with first := .root } rid
    | .root => do
        let entry ← st.tread it.listRoot
        match entry with
        | .entry next _ _ =>
          if next = it.next then readNext st { it with first := .later } rid
          else readNext st { it with first := .root, next := some it.listRoot } it.listRoot
        | .empty => readNext st { it with first := .root, next := some it.listRoot } it.listRoot
    | .later => readNext st it rid

end Iterate

end Stasis.LinkedList
