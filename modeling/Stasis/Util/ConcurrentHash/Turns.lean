import Stasis.Library.Probing
import Stasis.Util.ConcurrentHash

/-!
The loops of the hash table, as walks over a table with linear probing.

The walk of a removal starts at the bucket that it has to overwrite. An operation takes effect in
the turn in which it has found its bucket.
-/
namespace Stasis.ConcurrentHash
open Wheel Linearizable Function
open Probing (Walk)

section Wrap
variable {cfg : Config}

theorem hashtableFunc_lt (cfg : Config) (key : Int) : cfg.hashtableFunc key < cfg.size :=
  masked_lt cfg.bits _

theorem hashtableWrap_succ (lt : a < cfg.size) : cfg.hashtableWrap (a + 1) = next cfg.size a :=
  masked_succ lt

theorem hashtableWrap_sub (lt : a < cfg.size) (lt' : b < cfg.size) :
    cfg.hashtableWrap ((b : Int) - a) = dist cfg.size a b :=
  masked_sub lt lt'

end Wrap

variable {T V : Type}

def Bucket.entry (b : Bucket V) : Option (Int × V) := b.val.map fun v => (b.key, v)

/-- A bucket has a key if and only if it has a value. -/
def Bucket.Valid (b : Bucket V) : Prop := b.val = none ↔ b.key = -1

def table (buckets : Nat → Bucket V) : Nat → Option (Int × V) := fun b => (buckets b).entry

theorem table_update (buckets : Nat → Bucket V) (i : Nat) (b : Bucket V) :
    table (update buckets i b) = update (table buckets) i b.entry :=
  Function.comp_update Bucket.entry buckets i b

theorem valid_update (valid : ∀ b, (buckets b).Valid) {i : Nat} {b : Bucket V} (new : b.Valid) :
    ∀ c, (update buckets i b c).Valid :=
  (forall_update_iff buckets fun _ b => b.Valid).mpr ⟨new, fun c _ => valid c⟩

def Pc.walk (cfg : Config) : Pc V → Option (Walk Int)
  | .advancing op idx _ => some ⟨cfg.hashtableFunc op.p, idx, true, some op.p⟩
  | .trailing op _ idx _ => some ⟨cfg.hashtableFunc op.p, idx, false, some op.p⟩
  | .removing _ _ idx2 _ => some (.anchor idx2)
  | .skipping _ _ idx2 idx => some ⟨idx2, idx, true, none⟩
  | .skipped _ _ idx2 _ idx => some ⟨idx2, idx, false, none⟩
  | .compacted _ _ _ idx => some (.anchor idx)
  | _ => none

theorem Pc.hole_walk (cfg : Config) (pc : Pc V) : (pc.walk cfg).bind Walk.hole = pc.anchor := by
  cases pc <;> rfl

/-- The invariant of the library, for the buckets and the walks of the threads. -/
def Probes (cfg : Config) (buckets : Nat → Bucket V) (walks : T → Option (Walk Int))
    (m : Int → Option V) : Prop :=
  Probing.Inv cfg.size cfg.hashtableFunc (table buckets) walks m

section Turns
variable [DecidableEq T] {cfg : Config} {buckets : Nat → Bucket V} {walks : T → Option (Walk Int)}
  {m : Int → Option V} {t : T} {op : Op V} {ret : Option V} {idx idx2 numIncrs : Nat}

/-- The operation has taken effect at the bucket `idx`. -/
inductive Done (cfg : Config) (op : Op V) (ret : Option V) (idx : Nat) : Pc V → Prop
  | finishing : Done cfg op ret idx (.finishing op ret idx)
  | removing (isRemove : op.isRemove = true) :
      Done cfg op ret idx (.removing op ret idx (next cfg.size idx))

/-- What a turn of the loop of `hashtable_begin_op` comes to. -/
inductive Turned (cfg : Config) (buckets : Nat → Bucket V) (walks : T → Option (Walk Int))
    (m : Int → Option V) (t : T) (op : Op V) (idx numIncrs : Nat) : (Nat → Bucket V) × Pc V → Prop
  | passes (probes : Probes cfg buckets
        (update walks t ((Pc.advancing op idx (numIncrs + 1)).walk cfg)) m) :
      Turned cfg buckets walks m t op idx numIncrs (buckets, .advancing op idx (numIncrs + 1))
  | commits {after : Nat → Bucket V} {pc : Pc V}
      (probes : Probes cfg after (update walks t (pc.walk cfg)) (apply m op).1)
      (valid : ∀ b, (after b).Valid) (done : Done cfg op (apply m op).2 idx pc) :
      Turned cfg buckets walks m t op idx numIncrs (after, pc)

section
variable (h : Probes cfg buckets walks m) (valid : ∀ b, (buckets b).Valid)
  (at' : walks t = some ⟨cfg.hashtableFunc op.p, idx, false, some op.p⟩) (key : op.p ≠ -1)
include h valid at' key

theorem hashtableEndOp_spec (ret : Option V)
    (found : (buckets idx).entry = ret.map fun v => (op.p, v)) :
    Turned cfg buckets walks m t op idx numIncrs (hashtableEndOp cfg buckets op ret idx) := by
  have lt : idx < cfg.size := (h.good t _ at').stop_lt
  have known : m op.p = ret := by
    cases ret with
    | none => exact h.miss at' rfl rfl found
    | some v => exact h.hit at' rfl found
  have fits : ∀ k v, table buckets idx = some (k, v) → k = op.p := by
    intro k v entry
    obtain ⟨_, _, same⟩ := Option.map_eq_some_iff.mp (found.symm.trans entry)
    exact (congrArg Prod.fst same).symm
  have stays : (apply m op).1 = m → (apply m op).2 = ret →
      Turned cfg buckets walks m t op idx numIncrs (buckets, .finishing op ret idx) := by
    intro same result
    refine .commits ?_ valid (result ▸ .finishing)
    rw [same]
    exact h.leave at' rfl
  have puts : ∀ v, (apply m op).1 = update m op.p (some v) → (apply m op).2 = ret →
      Turned cfg buckets walks m t op idx numIncrs
        (update buckets idx ⟨op.p, some v⟩, .finishing op ret idx) := by
    intro v same result
    refine .commits ?_ (valid_update valid ⟨nofun, fun null => absurd null key⟩)
      (result ▸ .finishing)
    rw [same, Probes, table_update]
    exact h.put at' rfl rfl fits v
  cases op with
  | lookup p => exact stays rfl known
  | insert p val => exact puts val rfl known
  | testAndSet p val =>
    cases ret with
    | none => exact puts val (by simp only [apply]; rw [show m p = none from known]; rfl) known
    | some v => exact stays (by simp only [apply]; rw [show m p = some v from known]; rfl) known
  | remove p =>
    cases ret with
    | none => exact stays (Function.update_eq_self_iff.mpr known.symm) known
    | some v =>
      have wrap : cfg.hashtableWrap (idx + 1) = next cfg.size idx := hashtableWrap_succ lt
      show Turned cfg buckets walks m t _ idx numIncrs
        (buckets, .removing _ (some v) idx (cfg.hashtableWrap (idx + 1)))
      rw [wrap]
      refine .commits (h.remove at' rfl found) valid ?_
      rw [show (apply m (.remove p)).2 = some v from known]
      exact .removing rfl

theorem beginOpLoop_spec (few : numIncrs < cfg.maxbucketid / 4) :
    ∃ result, beginOpLoop cfg buckets op idx numIncrs = .ok result ∧
      Turned cfg buckets walks m t op idx numIncrs result := by
  rw [beginOpLoop, if_neg (not_not.mpr few)]
  have null := valid idx
  cases entry : (buckets idx).val with
  | none =>
    have noKey := null.mp entry
    refine ⟨_, ?_, hashtableEndOp_spec h valid at' key none ?_⟩
    · rw [if_neg (by rw [noKey]; exact key.symm), if_pos (by rfl), if_neg (not_not.mpr noKey)]
    · rw [Bucket.entry, entry]
      rfl
  | some v =>
    by_cases same : (buckets idx).key = op.p
    · refine ⟨_, ?_, hashtableEndOp_spec h valid at' key (some v) ?_⟩
      · rw [if_pos same, if_neg (by exact nofun)]
      · rw [Bucket.entry, entry, same]
    · refine ⟨_, ?_, .passes ?_⟩
      · rw [if_neg same, if_neg (by exact nofun)]
      · refine h.pass at' rfl (k := (buckets idx).key) (v := v) ?_ same
        show (buckets idx).entry = _
        rw [Bucket.entry, entry]
        rfl

end

/-- What a turn of the loop of `hashtable_end_op` comes to. -/
inductive Removed (op : Op V) (ret : Option V) (idx2 idx : Nat) : Pc V → Prop
  | skipping : Removed op ret idx2 idx (.skipping op ret idx2 idx)
  | compacted : Removed op ret idx2 idx (.compacted op ret idx2 idx)
  | cleared : Removed op ret idx2 idx (.cleared op ret idx2 idx)

theorem endOpLoop_spec (op : Op V) (ret : Option V) (h : Probes cfg buckets walks m)
    (valid : ∀ b, (buckets b).Valid) (at' : walks t = some ⟨idx2, idx, false, none⟩)
    (room : 2 * (Probing.occupied cfg.size (table buckets)).card ≤ cfg.size) :
    ∃ after pc, endOpLoop cfg buckets op ret idx2 idx = .ok (after, pc) ∧
      Probes cfg after (update walks t (pc.walk cfg)) m ∧ (∀ b, (after b).Valid) ∧
        Removed op ret idx2 idx pc := by
  have good := h.good t _ at'
  cases found : (buckets idx).val with
  | none =>
    have null : Bucket.Valid (⟨-1, none⟩ : Bucket V) := ⟨fun _ => rfl, fun _ => rfl⟩
    refine ⟨update buckets idx2 ⟨-1, none⟩, .cleared op ret idx2 idx, ?_, ?_,
      valid_update valid null, .cleared⟩
    · rw [endOpLoop, if_pos (by rw [found]; rfl), if_neg (not_not.mpr ((valid idx).mp found))]
    · rw [Probes, table_update]
      refine h.clear (hashtableFunc_lt cfg) at' rfl rfl ?_
      show (buckets idx).entry = none
      rw [Bucket.entry, found]
      rfl
  | some v =>
    have entry : table buckets idx = some ((buckets idx).key, v) := by
      show (buckets idx).entry = _
      rw [Bucket.entry, found]
      rfl
    have past := h.past_iff (hashtableFunc_lt cfg) at' rfl entry room
    have wrap : cfg.hashtableWrap ((idx2 : Int) - cfg.hashtableFunc (buckets idx).key) =
        dist cfg.size (cfg.hashtableFunc (buckets idx).key) idx2 :=
      hashtableWrap_sub (hashtableFunc_lt cfg _) good.start_lt
    rw [endOpLoop, if_neg (by rw [found]; exact nofun)]
    by_cases after : cfg.hashtableWrap ((idx2 : Int) - cfg.hashtableFunc (buckets idx).key) >
        cfg.maxbucketid / 2
    · refine ⟨buckets, .skipping op ret idx2 idx, if_pos after, ?_, valid, .skipping⟩
      exact h.pass at' rfl entry fun _ => past.mp (wrap ▸ after)
    · refine ⟨update buckets idx2 (buckets idx), .compacted op ret idx2 idx, if_neg after, ?_,
        valid_update valid (valid idx),
        .compacted⟩
      rw [Probes, table_update, show (buckets idx).entry = _ from entry]
      refine h.fill (hashtableFunc_lt cfg) at' rfl rfl entry (Nat.le_of_not_lt fun closer => ?_)
      exact after (wrap.symm ▸ past.mpr closer)

end Turns

end Stasis.ConcurrentHash
