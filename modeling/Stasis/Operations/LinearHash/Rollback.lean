import Stasis.Operations.LinearHash.Refinement

/-!
Rolling back the operations of a transaction on the linear hash table.

Each part of an operation that holds the mutex of the table is a step: `ThashRemove` is one, and
`ThashInsert` is two, the removal of what is there and the insertion. A step logs what undoes it.
A transaction undoes what it has logged, the newest entry first, on the table as it is then; in
between, the others go on. What the transaction has logged can always be undone, since its keys
are its own.
-/
namespace Stasis.LinearHash
open LinkedList Fallible Function List Finmap

variable {X K V : Type} [DecidableEq K]

inductive Event (X K V : Type) where
  | remove (x : X) (key : K)
  | insert (x : X) (key : K) (value : V)
  | finish (x : X)
  | undo (x : X)
deriving DecidableEq, Repr

/-- The table, what each transaction has logged, the newest entry first, and the insertion that it
is in the middle of. -/
structure World (T X K V : Type) where
  t : T
  logs : X → List (Logged K V)
  inserting : X → Option (K × V)

section Model
variable [DecidableEq X]

/-- `op_linear_hash_insert` and `op_linear_hash_remove`, whichever undoes the entry. -/
def Logged.run (env : Env K) (t : Table K V) : Logged K V → Except Stop (Table K V × Bool)
  | .insert key => thashRemoveInner env t key
  | .remove key value => thashInsertInner env t key value

def Event.run (env : Env K) (w : World (Table K V) X K V) :
    Event X K V → Except Stop (World (Table K V) X K V)
  | .remove x key => do
      let (t, _, logged) ← thashRemove env w.t key
      .ok { w with t := t, logs := update w.logs x (logged ++ w.logs x) }
  | .insert x key value => do
      let (t, _, logged) ← thashRemove env w.t key
      .ok ⟨t, update w.logs x (logged ++ w.logs x),
        update w.inserting x (some (key, value))⟩
  | .finish x =>
    match w.inserting x with
    | none => .error .fails
    | some (key, value) => do
        let (t, _) ← thashInsertInner env w.t key value
        .ok ⟨t, update w.logs x (.insert key :: w.logs x),
          update w.inserting x none⟩
  | .undo x =>
    match w.logs x with
    | [] => .ok w
    | e :: log => do
        let (t, _) ← e.run env w.t
        .ok { w with t := t, logs := update w.logs x log }

def runEvents (env : Env K) (w : World (Table K V) X K V) (events : List (Event X K V)) :
    Except Stop (World (Table K V) X K V) :=
  events.foldlM (Event.run env) w

end Model

section Interleaving
variable [DecidableEq X]

def Event.xid : Event X K V → X
  | .remove x _ => x
  | .insert x _ _ => x
  | .finish x => x
  | .undo x => x

/-- A transaction uses its own keys, and makes one call at a time. -/
def Event.Allowed (owner : K → X) (inserting : X → Option (K × V)) : Event X K V → Prop
  | .remove x key => owner key = x ∧ inserting x = none
  | .insert x key _ => owner key = x ∧ inserting x = none
  | .finish x => inserting x ≠ none
  | .undo x => inserting x = none

def Event.inserting (inserting : X → Option (K × V)) : Event X K V → X → Option (K × V)
  | .remove _ _ => inserting
  | .insert x key value => update inserting x (some (key, value))
  | .finish x => update inserting x none
  | .undo _ => inserting

/-- The steps are those of calls that transactions make on their own keys. -/
def Interleaving (owner : K → X) : (X → Option (K × V)) → List (Event X K V) → Prop
  | _, [] => True
  | inserting, e :: events =>
    e.Allowed owner inserting ∧ Interleaving owner (e.inserting inserting) events

end Interleaving

section Abstract
variable [DecidableEq X]

def Logged.key : Logged K V → K
  | .insert key => key
  | .remove key _ => key

def Logged.undo (m : Map K V) : Logged K V → Map K V
  | .insert key => m.erase key
  | .remove key value => m.insert key value

/-- The entry is there to be undone. -/
def Logged.Present (m : Map K V) : Logged K V → Prop
  | .insert key => m.lookup key ≠ none
  | .remove key _ => m.lookup key = none

def Logged.step (env : Env K) (s : Spec K V) : Logged K V → Spec K V
  | .insert key => s.remove key
  | .remove key value => s.put env key value

/-- The same step over the map. -/
def Event.step (env : Env K) (w : World (Spec K V) X K V) : Event X K V → World (Spec K V) X K V
  | .remove x key =>
    { w with
      t := w.t.remove key
      logs := update w.logs x
        (((w.t.map.lookup key).map (Logged.remove key)).toList ++ w.logs x) }
  | .insert x key value =>
    ⟨w.t.remove key, update w.logs x
        (((w.t.map.lookup key).map (Logged.remove key)).toList ++ w.logs x),
      update w.inserting x (some (key, value))⟩
  | .finish x =>
    match w.inserting x with
    | none => w
    | some (key, value) =>
      ⟨w.t.put env key value, update w.logs x (.insert key :: w.logs x),
        update w.inserting x none⟩
  | .undo x =>
    match w.logs x with
    | [] => w
    | e :: log => { w with t := e.step env w.t, logs := update w.logs x log }

def specEvents (env : Env K) (w : World (Spec K V) X K V) (events : List (Event X K V)) :
    World (Spec K V) X K V :=
  events.foldl (Event.step env) w

end Abstract

/-- The entries of a log can be undone one after another. -/
def Undoable (m : Map K V) : List (Logged K V) → Prop
  | [] => True
  | e :: log => e.Present m ∧ Undoable (e.undo m) log

def undone (m : Map K V) (log : List (Logged K V)) : Map K V := log.foldl Logged.undo m

section Undone
variable {log : List (Logged K V)} {key : K} {e : Logged K V}

theorem Logged.undo_lookup (same : m'.lookup key = m.lookup key) :
    (e.undo m').lookup key = (e.undo m).lookup key := by
  cases e with
  | insert k =>
    by_cases eq : key = k
    · rw [undo, undo, eq, lookup_erase, lookup_erase]
    · rw [undo, undo, lookup_erase_ne eq, lookup_erase_ne eq, same]
  | remove k value =>
    by_cases eq : key = k
    · rw [undo, undo, eq, lookup_insert, lookup_insert]
    · rw [undo, undo, lookup_insert_of_ne _ eq, lookup_insert_of_ne _ eq, same]

theorem Logged.undo_of_ne (ne : key ≠ e.key) : (e.undo m).lookup key = m.lookup key := by
  cases e with
  | insert k => exact lookup_erase_ne ne
  | remove k value => exact lookup_insert_of_ne _ ne

theorem Logged.present_congr (same : m'.lookup e.key = m.lookup e.key) (h : e.Present m) :
    e.Present m' := by
  cases e with
  | insert k => exact fun none => h (same.symm.trans none)
  | remove k value => exact same.trans h

theorem undone_lookup (same : m'.lookup key = m.lookup key) :
    (undone m' log).lookup key = (undone m log).lookup key := by
  induction log generalizing m m' with
  | nil => exact same
  | cons e log ih => exact ih (e.undo_lookup same)

theorem Undoable.congr (same : ∀ e ∈ log, m'.lookup e.key = m.lookup e.key) (h : Undoable m log) :
    Undoable m' log := by
  induction log generalizing m m' with
  | nil => trivial
  | cons e log ih =>
    refine ⟨e.present_congr (same e (.head _)) h.1, ih (fun e' mem => ?_) h.2⟩
    exact e.undo_lookup (same e' (.tail _ mem))

end Undone

/-- Transactions have logged what they did to their own keys, and it can be undone. The key of an
insertion that is not finished is not there. -/
structure Inv (owner : K → X) (w : World (Spec K V) X K V) : Prop where
  own : ∀ x, ∀ e ∈ w.logs x, owner e.key = x
  undoable : ∀ x, Undoable w.t.map (w.logs x)
  inserting : ∀ x key value, w.inserting x = some (key, value) →
    owner key = x ∧ w.t.map.lookup key = none

/-- What a step of a transaction makes of the map and its log. -/
structure Moved (owner : K → X) (w : World (Spec K V) X K V) (x : X) (m : Map K V)
    (log : List (Logged K V)) (inserting : Option (K × V)) : Prop where
  others : ∀ key, owner key ≠ x → m.lookup key = w.t.map.lookup key
  own : ∀ e ∈ log, owner e.key = x
  undoable : Undoable m log
  back : undone m log = undone w.t.map (w.logs x)
  absent : ∀ key value, inserting = some (key, value) → owner key = x ∧ m.lookup key = none

section Steps
variable {w : World (Spec K V) X K V}

theorem insert_erase_self {m : Map K V} (found : m.lookup key = some value) :
    (m.erase key).insert key value = m := by
  refine ext_lookup fun k => ?_
  by_cases eq : k = key
  · rw [eq, lookup_insert, found]
  · rw [lookup_insert_of_ne _ eq, lookup_erase_ne eq]

theorem erase_insert_self {m : Map K V} (absent : m.lookup key = none) :
    (m.insert key value).erase key = m := by
  refine ext_lookup fun k => ?_
  by_cases eq : k = key
  · rw [eq, lookup_erase, absent]
  · rw [lookup_erase_ne eq, lookup_insert_of_ne _ eq]

theorem Inv.removed (h : Inv owner w) (mine : owner key = x) {inserting : Option (K × V)}
    (only : ∀ k value, inserting = some (k, value) → k = key) :
    Moved owner w x (w.t.map.erase key)
      (((w.t.map.lookup key).map (Logged.remove key)).toList ++ w.logs x) inserting := by
  have elsewhere : ∀ k, owner k ≠ x → (w.t.map.erase key).lookup k = w.t.map.lookup k :=
    fun k other => lookup_erase_ne fun eq => other (eq ▸ mine)
  have absent : ∀ k value, inserting = some (k, value) →
      owner k = x ∧ (w.t.map.erase key).lookup k = none := by
    intro k value eq
    rw [only k value eq]
    exact ⟨mine, lookup_erase _ _⟩
  cases found : w.t.map.lookup key with
  | none =>
    rw [erase_absent found] at elsewhere absent ⊢
    exact ⟨elsewhere, h.own x, h.undoable x, rfl, absent⟩
  | some value =>
    have back := insert_erase_self found
    refine ⟨elsewhere, fun e mem => ?_, ⟨lookup_erase _ _, ?_⟩, ?_, absent⟩
    · cases mem with
      | head => exact mine
      | tail _ old => exact h.own x e old
    · rw [Logged.undo, back]
      exact h.undoable x
    · show undone ((w.t.map.erase key).insert key value) (w.logs x) = _
      rw [back]

theorem Inv.finished (h : Inv owner w) (pending : w.inserting x = some (key, value)) :
    Moved owner w x (w.t.map.insert key value) (.insert key :: w.logs x) none := by
  obtain ⟨mine, absent⟩ := h.inserting x key value pending
  have back : (w.t.map.insert key value).erase key = w.t.map := erase_insert_self absent
  refine ⟨fun k other => ?_, fun e mem => ?_, ⟨?_, ?_⟩, ?_, nofun⟩
  · exact lookup_insert_of_ne _ fun eq => other (eq ▸ mine)
  · cases mem with
    | head => exact mine
    | tail _ old => exact h.own x e old
  · show (w.t.map.insert key value).lookup key ≠ none
    rw [lookup_insert]
    exact nofun
  · rw [Logged.undo, back]
    exact h.undoable x
  · show undone ((w.t.map.insert key value).erase key) (w.logs x) = _
    rw [back]

theorem Inv.undid (h : Inv owner w) (newest : w.logs x = e :: log) (idle : w.inserting x = none) :
    Moved owner w x (e.undo w.t.map) log (w.inserting x) := by
  have own := h.own x
  have undoable := h.undoable x
  rw [newest] at own undoable
  have mine := own e (.head _)
  refine ⟨fun k other => e.undo_of_ne fun eq => other (eq ▸ mine), fun e' mem => own e' (.tail _ mem),
    undoable.2, ?_, fun k value eq => ?_⟩
  · rw [newest]
    rfl
  · rw [idle] at eq
    cases eq

theorem Logged.step_map (env : Env K) (s : Spec K V) (e : Logged K V) :
    (e.step env s).map = e.undo s.map := by
  cases e with
  | insert key => rfl
  | remove key value => rfl

variable [DecidableEq X]

theorem Event.step_eq (env : Env K) (h : Inv owner w) (e : Event X K V)
    (allowed : e.Allowed owner w.inserting) :
    ∃ s log, e.step env w = ⟨s, update w.logs e.xid log, e.inserting w.inserting⟩ ∧
      Moved owner w e.xid s.map log (e.inserting w.inserting e.xid) := by
  cases e with
  | remove x key =>
    obtain ⟨mine, idle⟩ := allowed
    refine ⟨_, _, rfl, h.removed mine fun k value eq => ?_⟩
    exact absurd (idle.symm.trans eq) nofun
  | insert x key value =>
    refine ⟨_, _, rfl, h.removed allowed.1 fun k v eq => ?_⟩
    rw [Event.inserting, Event.xid, update_self] at eq
    cases eq
    rfl
  | finish x =>
    obtain ⟨⟨key, value⟩, pending⟩ := Option.ne_none_iff_exists'.mp allowed
    refine ⟨w.t.put env key value, .insert key :: w.logs x, ?_, ?_⟩
    · rw [Event.step, pending]
      rfl
    · rw [Event.inserting, Event.xid, update_self]
      exact h.finished pending
  | undo x =>
    cases newest : w.logs x with
    | nil =>
      refine ⟨w.t, [], ?_, fun k _ => rfl, nofun, trivial, ?_, h.inserting x⟩
      · have same := update_eq_self x w.logs
        rw [newest] at same
        rw [Event.step, newest]
        exact congrArg (World.mk w.t · w.inserting) same.symm
      · rw [Event.xid, newest]
    | cons e log =>
      refine ⟨e.step env w.t, log, ?_, ?_⟩
      · rw [Event.step, newest]
        rfl
      · rw [e.step_map]
        exact h.undid newest allowed

omit [DecidableEq K] in
theorem Event.inserting_of_ne (inserting : X → Option (K × V)) (e : Event X K V) (ne : y ≠ e.xid) :
    e.inserting inserting y = inserting y := by
  cases e with
  | remove x key => rfl
  | insert x key value => exact update_of_ne ne _ _
  | finish x => exact update_of_ne ne _ _
  | undo x => rfl

section
variable {owner : K → X} {env : Env K} {w' : World (Spec K V) X K V} (e : Event X K V)
  (h : Inv owner w) (allowed : e.Allowed owner w.inserting) (eq : e.step env w = w')
include h allowed eq

variable (env) in
theorem Event.step_moved :
    Moved owner w e.xid w'.t.map (w'.logs e.xid) (w'.inserting e.xid) ∧
      (∀ y, y ≠ e.xid → w'.logs y = w.logs y ∧ w'.inserting y = w.inserting y) ∧
      w'.inserting = e.inserting w.inserting := by
  obtain ⟨s, log, same, moved⟩ := e.step_eq env h allowed
  rw [same] at eq
  subst eq
  refine ⟨?_, fun y ne => ⟨update_of_ne ne _ _, e.inserting_of_ne _ ne⟩, rfl⟩
  show Moved owner w e.xid s.map (update w.logs e.xid log e.xid) _
  rw [update_self]
  exact moved

theorem Inv.step : Inv owner w' := by
  obtain ⟨moved, others, _⟩ := e.step_moved env h allowed eq
  refine ⟨fun y e' mem => ?_, fun y => ?_, fun y key value pending => ?_⟩
  · by_cases same : y = e.xid
    · exact same ▸ moved.own e' (same ▸ mem)
    · rw [(others y same).1] at mem
      exact h.own y e' mem
  · by_cases same : y = e.xid
    · exact same ▸ moved.undoable
    · rw [(others y same).1]
      refine (h.undoable y).congr fun e' mem => moved.others _ ?_
      rw [h.own y e' mem]
      exact same
  · by_cases same : y = e.xid
    · exact same ▸ moved.absent key value (same ▸ pending)
    · rw [(others y same).2] at pending
      obtain ⟨mine, absent⟩ := h.inserting y key value pending
      exact ⟨mine, (moved.others key (mine.symm ▸ same)).trans absent⟩

theorem Inv.keeps (mine : owner key = x) :
    (undone w'.t.map (w'.logs x)).lookup key = (undone w.t.map (w.logs x)).lookup key := by
  obtain ⟨moved, others, _⟩ := e.step_moved env h allowed eq
  by_cases same : x = e.xid
  · rw [same, moved.back]
  · rw [(others x same).1]
    exact undone_lookup (moved.others key (mine.symm ▸ same))

end

theorem specEvents_inv (env : Env K) (h : Inv owner w)
    (interleaving : Interleaving owner w.inserting events) :
    Inv owner (specEvents env w events) ∧
      (specEvents env w events).inserting = events.foldl Event.inserting w.inserting ∧
      ∀ x key, owner key = x →
        (undone (specEvents env w events).t.map ((specEvents env w events).logs x)).lookup key =
          (undone w.t.map (w.logs x)).lookup key := by
  induction events generalizing w with
  | nil => exact ⟨h, rfl, fun _ _ _ => rfl⟩
  | cons e events ih =>
    obtain ⟨allowed, rest⟩ := interleaving
    have inserting := (e.step_moved env h allowed rfl).2.2
    obtain ⟨inv, final, keeps⟩ := ih (h.step e allowed rfl) (inserting.symm ▸ rest)
    refine ⟨inv, ?_, fun x key mine => ?_⟩
    · rw [foldl_cons, ← inserting]
      exact final
    · exact (keeps x key mine).trans (h.keeps e allowed rfl mine)

omit [DecidableEq K] in
theorem interleaving_append {l l' : List (Event X K V)} :
    Interleaving owner inserting (l ++ l') ↔
      Interleaving owner inserting l ∧ Interleaving owner (l.foldl Event.inserting inserting) l' := by
  induction l generalizing inserting with
  | nil => exact ⟨fun h => ⟨trivial, h⟩, fun h => h.2⟩
  | cons e l ih =>
    rw [cons_append, Interleaving, Interleaving, ih, and_assoc]
    rfl

end Steps

/-- The worlds differ in what belongs to one transaction only. -/
structure Agree (owner : K → X) (x : X) (w w' : World (Spec K V) X K V) : Prop where
  map : ∀ key, owner key ≠ x → w'.t.map.lookup key = w.t.map.lookup key
  logs : ∀ y, y ≠ x → w'.logs y = w.logs y
  inserting : ∀ y, y ≠ x → w'.inserting y = w.inserting y

section Agree
variable [DecidableEq X]

theorem Agree.left (h : Agree owner x w w') (inv : Inv owner w) (e : Event X K V)
    (allowed : e.Allowed owner w.inserting) (mine : e.xid =
      x) : Agree owner x (e.step env w) w' := by
  obtain ⟨moved, others, _⟩ := e.step_moved env inv allowed rfl
  rw [mine] at moved others
  refine ⟨fun key other => ?_, fun y ne => ?_, fun y ne => ?_⟩
  · rw [h.map key other, moved.others key other]
  · rw [h.logs y ne, (others y ne).1]
  · rw [h.inserting y ne, (others y ne).2]

theorem erase_lookup {m m' : Map K V} {key k : K} (same : m'.lookup k = m.lookup k) :
    (m'.erase key).lookup k = (m.erase key).lookup k :=
  Logged.undo_lookup (e := .insert key) same

theorem insert_lookup {m m' : Map K V} {key k : K} (same : m'.lookup k = m.lookup k) :
    (m'.insert key value).lookup k = (m.insert key value).lookup k :=
  Logged.undo_lookup (e := .remove key value) same

omit [DecidableEq K] in
theorem update_agree {β : Type} {f f' : X → β} {b b' : β} (value : b' = b)
    (same : ∀ y, y ≠ x → f' y = f y) : ∀ y, y ≠ x → update f' z b' y = update f z b y := by
  intro y ne
  by_cases eq : y = z
  · rw [eq, update_self, update_self, value]
  · rw [update_of_ne eq, update_of_ne eq, same y ne]

theorem Agree.both (h : Agree owner x w w') (e : Event X K V)
    (allowed : e.Allowed owner w.inserting) (other : e.xid ≠ x) :
    Agree owner x (e.step env w) (e.step env w') := by
  cases e with
  | remove y key =>
    have found := h.map key (allowed.1.symm ▸ other)
    refine ⟨fun k ne => erase_lookup (h.map k ne), update_agree ?_ h.logs, h.inserting⟩
    rw [found, h.logs y other]
  | insert y key value =>
    have found := h.map key (allowed.1.symm ▸ other)
    refine ⟨fun k ne => erase_lookup (h.map k ne), update_agree ?_ h.logs,
      update_agree rfl h.inserting⟩
    rw [found, h.logs y other]
  | finish y =>
    rw [Event.step, Event.step, h.inserting y other]
    cases w.inserting y with
    | none => exact h
    | some p =>
      refine ⟨fun k ne => insert_lookup (h.map k ne), update_agree ?_ h.logs,
        update_agree rfl h.inserting⟩
      rw [h.logs y other]
  | undo y =>
    rw [Event.step, Event.step, h.logs y other]
    cases w.logs y with
    | nil => exact h
    | cons e rest =>
      refine ⟨fun k ne => ?_, update_agree rfl h.logs, h.inserting⟩
      show (e.step env w'.t).map.lookup k = (e.step env w.t).map.lookup k
      rw [e.step_map, e.step_map]
      exact e.undo_lookup (h.map k ne)

theorem Agree.run (env : Env K) {events : List (Event X K V)} (h : Agree owner x w w')
    (inv : Inv owner w) (interleaving : Interleaving owner w.inserting events) :
    Agree owner x (specEvents env w events)
      (specEvents env w' (events.filter fun e => e.xid ≠ x)) := by
  induction events generalizing w w' with
  | nil => exact h
  | cons e events ih =>
    obtain ⟨allowed, rest⟩ := interleaving
    have inserting := (e.step_moved env inv allowed rfl).2.2
    have after : Inv owner (e.step env w) := inv.step e allowed rfl
    by_cases mine : e.xid = x
    · rw [filter_cons_of_neg (by simp [mine])]
      exact ih (h.left inv e allowed mine) after (inserting.symm ▸ rest)
    · rw [filter_cons_of_pos (by simp [mine])]
      exact ih (h.both e allowed mine) after (inserting.symm ▸ rest)

end Agree

/-- The table goes through the history of the map. -/
structure Tracks (env : Env K) (w : World (Table K V) X K V) (a : World (Spec K V) X K V) : Prop where
  table : Refines env w.t a.t
  logs : w.logs = a.logs
  inserting : w.inserting = a.inserting

section Tracks
variable [DecidableEq X]

theorem Logged.run_spec (h : Refines env t s) (e : Logged K V) (present : e.Present s.map)
    (enough : s.map.keys.card < env.fuel) (small : (e.step env s).lhh.numBuckets < 2 ^ 30) :
    ∃ t' ret, e.run env t = .ok (t', ret) ∧ Refines env t' (e.step env s) := by
  cases e with
  | insert key =>
    obtain ⟨t', ran, after⟩ := h.removeInner (le_of_lt enough) present
    exact ⟨t', _, ran, after⟩
  | remove key value =>
    obtain ⟨t', ran, after⟩ := h.insertInner enough key value small
    exact ⟨t', _, ran, after⟩

theorem Event.run_spec (h : Tracks env w a) (inv : Inv owner a) (e : Event X K V)
    (allowed : e.Allowed owner a.inserting) (enough : a.t.map.keys.card < env.fuel)
    (small : (e.step env a).t.lhh.numBuckets < 2 ^ 30) :
    ∃ w', e.run env w = .ok w' ∧ Tracks env w' (e.step env a) := by
  obtain ⟨table, logs, inserting⟩ := h
  cases e with
  | remove x key =>
    obtain ⟨t', ran, after⟩ := table.remove (le_of_lt enough) key
    refine ⟨_, bind_ok ran rfl, after, ?_, inserting⟩
    rw [logs]
    rfl
  | insert x key value =>
    obtain ⟨t', ran, after⟩ := table.remove (le_of_lt enough) key
    refine ⟨_, bind_ok ran rfl, after, ?_, ?_⟩
    · rw [logs]
      rfl
    · rw [inserting]
      rfl
  | finish x =>
    obtain ⟨⟨key, value⟩, pending⟩ := Option.ne_none_iff_exists'.mp allowed
    rw [Event.step, pending] at small ⊢
    obtain ⟨t', ran, after⟩ := table.insertInner enough key value small
    rw [Event.run, inserting, pending]
    refine ⟨_, bind_ok ran rfl, after, ?_, rfl⟩
    rw [logs]
  | undo x =>
    rw [Event.run, logs]
    have undoable := inv.undoable x
    rw [Event.step] at small ⊢
    cases newest : a.logs x with
    | nil => exact ⟨w, rfl, table, logs, inserting⟩
    | cons e log =>
      rw [newest] at undoable small
      obtain ⟨t', ret, ran, after⟩ := e.run_spec table undoable.1 enough small
      exact ⟨_, bind_ok ran rfl, after, rfl, inserting⟩

theorem Event.card_step (env : Env K) (a : World (Spec K V) X K V) (e : Event X K V) :
    (e.step env a).t.map.keys.card ≤ a.t.map.keys.card + 1 := by
  cases e with
  | remove x key => exact Nat.le_succ_of_le (a.t.card_remove key)
  | insert x key value => exact Nat.le_succ_of_le (a.t.card_remove key)
  | finish x =>
    rw [Event.step]
    cases a.inserting x with
    | none => exact Nat.le_succ _
    | some p => exact a.t.card_put env p.1 p.2
  | undo x =>
    rw [Event.step]
    cases a.logs x with
    | nil => exact Nat.le_succ _
    | cons e log =>
      cases e with
      | insert key => exact Nat.le_succ_of_le (a.t.card_remove key)
      | remove key value => exact a.t.card_put env key value

theorem specEvents_append (env : Env K) (a : World (Spec K V) X K V) (l l' : List (Event X K V)) :
    specEvents env a (l ++ l') = specEvents env (specEvents env a l) l' :=
  foldl_append ..

theorem card_specEvents (env : Env K) (a : World (Spec K V) X K V) (l : List (Event X K V)) :
    (specEvents env a l).t.map.keys.card ≤ a.t.map.keys.card + l.length := by
  induction l generalizing a with
  | nil => exact le_rfl
  | cons e l ih =>
    have first := e.card_step env a
    have rest := ih (e.step env a)
    rw [length_cons]
    exact le_trans rest (by omega)

theorem runEvents_spec {events : List (Event X K V)} (h : Tracks env w a) (inv : Inv owner a)
    (interleaving : Interleaving owner a.inserting events)
    (enough : a.t.map.keys.card + events.length ≤ env.fuel)
    (small : ∀ l, l <+: events → (specEvents env a l).t.lhh.numBuckets < 2 ^ 30) :
    ∃ w', runEvents env w events = .ok w' ∧ Tracks env w' (specEvents env a events) := by
  induction events generalizing w a with
  | nil => exact ⟨w, rfl, h⟩
  | cons e events ih =>
    obtain ⟨allowed, rest⟩ := interleaving
    rw [length_cons] at enough
    have inserting := (e.step_moved env inv allowed rfl).2.2
    obtain ⟨w1, ran, after⟩ := e.run_spec h inv allowed (by omega)
      (small [e] (List.prefix_append [e] events))
    have counted := e.card_step env a
    obtain ⟨w', final, tracks⟩ := ih after (inv.step e allowed rfl) (inserting.symm ▸ rest)
      (by omega) fun l le => small (e :: l) (List.cons_prefix_cons.mpr ⟨rfl, le⟩)
    refine ⟨w', ?_, tracks⟩
    rw [runEvents, foldlM_cons]
    exact bind_ok ran final

end Tracks

/-- The map after some operations, with no transaction under way. -/
def World.start (env : Env K) (before : List (Op K V)) : World (Spec K V) X K V :=
  ⟨Spec.create.run env before, fun _ => [], fun _ => none⟩

theorem start_inv (env : Env K) (owner : K → X) (before : List (Op K V)) :
    Inv owner (.start env before) :=
  ⟨fun _ _ mem => (not_mem_nil mem).elim, fun _ => trivial, nofun⟩

theorem start_tracks {before : List (Op K V)} (enough : before.length ≤ env.fuel)
    (small : ∀ l, l <+: before → (Spec.create.run env l).lhh.numBuckets < 2 ^ 30) :
    ∃ t, runOps env thashCreate before = .ok (t, rets ∅ before) ∧
      Tracks env ⟨t, fun _ : X => [], fun _ => none⟩ (.start env before) ∧
      (Spec.create.run env before).map.keys.card ≤ before.length := by
  have empty : (∅ : Map K V).keys.card = 0 := by rw [keys_empty, Finset.card_empty]
  have counted : _ ≤ (∅ : Map K V).keys.card + _ := Spec.create.card_run env before
  have fits : (∅ : Map K V).keys.card + before.length ≤ env.fuel := by omega
  obtain ⟨t, made, refines, _⟩ := runOps_spec (refines_create env) fits small
  exact ⟨t, made, ⟨refines, rfl, rfl⟩, by omega⟩

section Abort
variable [DecidableEq X] {owner : K → X} {x : X}

theorem logs_undo (env : Env K) (a : World (Spec K V) X K V) (x : X) :
    ((Event.undo x).step env a).logs x = (a.logs x).drop 1 := by
  rw [Event.step]
  cases newest : a.logs x with
  | nil => exact newest
  | cons e log => exact update_self ..

/-- A transaction that makes `n` steps of its rollback undoes its newest `n` entries. -/
theorem logs_undos (env : Env K) {a : World (Spec K V) X K V} (inv : Inv owner a)
    (interleaving : Interleaving owner a.inserting events)
    (undos : events.filter (fun e => e.xid = x) = List.replicate n (.undo x)) :
    (specEvents env a events).logs x = (a.logs x).drop n := by
  induction events generalizing a n with
  | nil =>
    have none : n = 0 := by simpa using undos
    rw [none]
    rfl
  | cons e events ih =>
    obtain ⟨allowed, rest⟩ := interleaving
    obtain ⟨_, others, inserting⟩ := e.step_moved env inv allowed rfl
    have after := fun n => ih (n := n) (inv.step e allowed rfl) (inserting.symm ▸ rest)
    by_cases mine : e.xid = x
    · rw [filter_cons_of_pos (by simp [mine])] at undos
      cases n with
      | zero => cases undos
      | succ n =>
        obtain ⟨rfl, left⟩ := List.cons.inj undos
        refine (after n left).trans ?_
        rw [logs_undo, drop_drop, Nat.add_comm]
    · rw [filter_cons_of_neg (by simp [mine])] at undos
      rw [← (others x (Ne.symm mine)).1]
      exact after n undos

theorem runEvents_first {w : World (Table K V) X K V} (h : Tracks env w a) (inv : Inv owner a)
    (interleaving : Interleaving owner a.inserting (l ++ l'))
    (enough : a.t.map.keys.card + (l ++ l').length ≤ env.fuel)
    (small : ∀ p, p <+: l ++ l' → (specEvents env a p).t.lhh.numBuckets < 2 ^ 30)
    (at_a' : specEvents env a l = a') :
    ∃ w', runEvents env w l = .ok w' ∧ Tracks env w' a' ∧ Inv owner a' ∧
      Interleaving owner a'.inserting l' ∧ a'.t.map.keys.card + l'.length ≤ env.fuel ∧
      ∀ p, p <+: l' → (specEvents env a' p).t.lhh.numBuckets < 2 ^ 30 := by
  subst at_a'
  obtain ⟨first, second⟩ := interleaving_append.mp interleaving
  rw [length_append] at enough
  obtain ⟨w', ran, tracks⟩ := runEvents_spec h inv first (by omega) fun p le =>
    small p (le.trans (List.prefix_append ..))
  obtain ⟨inv', inserting, _⟩ := specEvents_inv env inv first
  have few := card_specEvents env a l
  refine ⟨w', ran, tracks, inv', inserting ▸ second, by omega, fun p le => ?_⟩
  rw [← specEvents_append]
  exact small _ ((List.prefix_append_right_inj l).mpr le)

/-- Transactions work on keys of their own, on a table with any contents. One of them begins at
`a0` and has logged what it did at `a1`; then it undoes all of that, while the others go on. In
the end its keys are as they were when it began, the other keys are as if it had undone nothing,
and the table is the map that this gives, with its keys counted. -/
theorem rollback_restores_map (env : Env K) (owner : K → X) (x : X) (before : List (Op K V))
    {earlier history undos : List (Event X K V)} {a0 a1 a2 a3 : World (Spec K V) X K V}
    (interleaving : Interleaving owner (fun _ => none) (earlier ++ (history ++ undos)))
    (begins : ∀ e ∈ earlier, e.xid ≠ x)
    (at_a0 : specEvents env (.start env before) earlier = a0)
    (at_a1 : specEvents env a0 history = a1)
    (aborts : undos.filter (fun e => e.xid = x) = List.replicate (a1.logs x).length (.undo x))
    (at_a2 : specEvents env a1 undos = a2)
    (at_a3 : specEvents env a1 (undos.filter fun e => e.xid ≠ x) = a3)
    (enough : before.length + (earlier ++ (history ++ undos)).length ≤ env.fuel)
    (small : ∀ l, l <+: before → (Spec.create.run env l).lhh.numBuckets < 2 ^ 30)
    (smaller : ∀ l, l <+: earlier ++ (history ++ undos) →
      (specEvents env (.start env before) l).t.lhh.numBuckets < 2 ^ 30) :
    ∃ t w0 w1 w2, runOps env thashCreate before = .ok (t, rets ∅ before) ∧
      runEvents env ⟨t, fun _ => [], fun _ => none⟩ earlier = .ok w0 ∧
      runEvents env w0 history = .ok w1 ∧ runEvents env w1 undos = .ok w2 ∧
      IsMap env w0.t a0.t.map ∧ IsMap env w1.t a1.t.map ∧ IsMap env w2.t a2.t.map ∧
      w1.logs = a1.logs ∧ w2.logs x = [] ∧
      (∀ key, owner key = x → a2.t.map.lookup key = a0.t.map.lookup key) ∧
      ∀ key, owner key ≠ x → a2.t.map.lookup key = a3.t.map.lookup key := by
  rw [length_append] at enough
  obtain ⟨t, made, tracks, few⟩ := start_tracks (X := X) (by omega) small
  have inv := start_inv env owner before
  have begun : a0.logs x = [] := by
    rw [← at_a0]
    refine logs_undos (n := 0) env inv (interleaving_append.mp interleaving).1 ?_
    exact filter_eq_nil_iff.mpr fun e mem => by simp [begins e mem]
  obtain ⟨w0, ran0, tracks0, inv0, interleaving0, enough0, small0⟩ :=
    runEvents_first tracks inv interleaving
      (by show (Spec.create.run env before).map.keys.card + _ ≤ _; rw [length_append]; omega)
      smaller at_a0
  obtain ⟨w1, ran1, tracks1, inv1, interleaving1, enough1, small1⟩ :=
    runEvents_first tracks0 inv0 interleaving0 enough0 small0 at_a1
  obtain ⟨w2, ran2, tracks2⟩ := runEvents_spec tracks1 inv1 interleaving1 enough1 small1
  have worked := (specEvents_inv env inv0 (interleaving_append.mp interleaving0).1).2.2 x
  have undid := (specEvents_inv env inv1 interleaving1).2.2 x
  have ended := logs_undos env inv1 interleaving1 aborts
  have agree := Agree.run (x := x) env ⟨fun _ _ => rfl, fun _ _ => rfl, fun _ _ => rfl⟩ inv1
    interleaving1
  rw [at_a1] at worked
  rw [at_a2] at tracks2 undid ended agree
  rw [at_a3] at agree
  rw [drop_length] at ended
  refine ⟨t, w0, w1, w2, made, ran0, ran1, ran2, tracks0.table.isMap, tracks1.table.isMap,
    tracks2.table.isMap, tracks1.logs, by rw [tracks2.logs, ended], fun key mine => ?_,
    fun key other => (agree.map key other).symm⟩
  have kept := (undid key mine).trans (worked key mine)
  rw [ended, begun] at kept
  exact kept

/-- Transaction 0 has the even keys, and overwrites one of them. -/
def overwrites : List (Event Nat Nat Nat) :=
  [.insert 0 0 20, .insert 1 3 33, .finish 0, .finish 1, .remove 0 2]

def undoes : List (Event Nat Nat Nat) :=
  [.undo 0, .insert 1 5 55, .undo 0, .finish 1, .undo 0]

theorem rollback_restores_map_overwrites :
    ∃ t w0 w1 w2, runOps (orderedEnv 20) thashCreate [.insert 0 10, .insert 1 11, .insert 2 12] =
        .ok (t, [.present false, .present false, .present false]) ∧
      runEvents (orderedEnv 20) ⟨t, fun _ : Nat => [], fun _ => none⟩ [.remove 1 1] = .ok w0 ∧
      runEvents (orderedEnv 20) w0 overwrites = .ok w1 ∧
      runEvents (orderedEnv 20) w1 undoes = .ok w2 ∧
      w1.logs 0 = [.remove 2 12, .insert 0, .remove 0 10] ∧ w2.logs 0 = [] ∧
      IsMap (orderedEnv 20) w2.t
        (((((∅ : Map Nat Nat).insert 0 10).insert 2 12).insert 3 33).insert 5 55) := by
  let before : List (Op Nat Nat) := [.insert 0 10, .insert 1 11, .insert 2 12]
  have small : ∀ l ∈ before.inits,
      (Spec.create.run (orderedEnv 20) l).lhh.numBuckets < 2 ^ 30 := by decide +kernel
  have smaller : ∀ l ∈ List.inits ([.remove 1 1] ++ (overwrites ++ undoes)),
      (specEvents (orderedEnv 20) (.start (orderedEnv 20) before) l).t.lhh.numBuckets < 2 ^ 30 := by
    decide +kernel
  have interleaving : Interleaving (fun key => key % 2) (fun _ => none)
      ([.remove 1 1] ++ (overwrites ++ undoes)) :=
    ⟨⟨rfl, rfl⟩, ⟨rfl, rfl⟩, ⟨rfl, rfl⟩, nofun, nofun, ⟨rfl, rfl⟩, rfl, ⟨rfl, rfl⟩, rfl, nofun, rfl,
      trivial⟩
  obtain ⟨t, w0, w1, w2, made, ran0, ran1, ran2, _, _, isMap, logged, ended, _⟩ :=
    rollback_restores_map (orderedEnv 20) (fun key => key % 2) 0 before interleaving
      (by decide) rfl rfl (by decide +kernel) rfl rfl (by decide)
      (fun l le => small l ((mem_inits l _).mpr le))
      fun l le => smaller l ((mem_inits l _).mpr le)
  refine ⟨t, w0, w1, w2, made, ran0, ran1, ran2, ?_, ended, ?_⟩
  · rw [logged]
    decide +kernel
  · have same : (specEvents (orderedEnv 20) (specEvents (orderedEnv 20)
        (specEvents (orderedEnv 20) (.start (orderedEnv 20) before) [.remove 1 1]) overwrites)
        undoes).t.map =
        ((((∅ : Map Nat Nat).insert 0 10).insert 2 12).insert 3 33).insert 5 55 := by decide +kernel
    exact same ▸ isMap

end Abort

end Stasis.LinearHash
