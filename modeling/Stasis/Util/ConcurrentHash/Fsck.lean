import Stasis.Util.ConcurrentHash.Linearizability

/-!
`hashtable_fsck`, on a table that no thread is using.
-/
namespace Stasis.ConcurrentHash
open Wheel Function

variable {T V : Type} {cfg : Config} {buckets : Nat → Bucket V}

section Model
variable (cfg : Config) (buckets : Nat → Bucket V)

/-- The assertions about the bucket `i` after `prev`. If it has no key, the value of `blank` must be
null. -/
def fsckBucket (prev i blank : Nat) : Bool :=
  if (buckets i).key ≠ -1 then
    let thisHashCode := cfg.hashtableFunc (buckets i).key
    if thisHashCode ≠ i then
      (buckets prev).key ≠ -1 ∧ (buckets prev).val ≠ none ∧
        (thisHashCode < i ∨ thisHashCode > i + cfg.maxbucketid / 2)
    else true
  else (buckets blank).val.isNone

variable [DecidableEq T] (t : T) (muts : Nat → Option (T × Nat))

/-- A turn of the loop, for the bucket after `prev`. -/
def fsckNext (prev : Nat) : Except Stop (Nat → Option (T × Nat)) := do
  let muts ← lock muts t (prev + 1)
  if fsckBucket cfg buckets prev (prev + 1) (prev + 1) then .ok (unlock muts t prev)
  else .error .fails

def hashtableFsck : Except Stop (Nat → Option (T × Nat)) := do
  let muts ← lock muts t 0
  let muts ← (List.range cfg.maxbucketid).foldlM (fsckNext cfg buckets t) muts
  let muts ← lock muts t 0
  -- The value that is looked at here is not the one of bucket 0.
  if fsckBucket cfg buckets cfg.maxbucketid 0 cfg.maxbucketid then
    .ok (unlock (unlock muts t cfg.maxbucketid) t 0)
  else .error .fails

end Model

section Latches
variable [DecidableEq T] {t : T}

/-- The latches when a thread has one of them. -/
def one (t : T) (i : Nat) : Nat → Option (T × Nat) := update (fun _ => none) i (some (t, 1))

theorem lock_one (ne : j ≠ i) : lock (one t i) t j = .ok (update (one t i) j (some (t, 1))) := by
  rw [lock, one, update_of_ne ne]

theorem unlock_one (ne : j ≠ i) : unlock (update (one t i) j (some (t, 1))) t i = one t j := by
  rw [unlock, update_of_ne ne.symm, one, update_self]
  simp only [if_true, Nat.le_refl]
  rw [update_comm ne, update_idem, update_eq_self (f := fun _ => none)]
  rfl

theorem foldlM_fsckNext
    (checks : ∀ i < n, fsckBucket cfg buckets i (i + 1) (i + 1) = true) :
    (List.range n).foldlM (fsckNext cfg buckets t) (one t 0) = .ok (one t n) := by
  induction n with
  | zero => rfl
  | succ n ih =>
    rw [List.range_succ, List.foldlM_append, ih fun i lt => checks i (by omega)]
    have ne : n + 1 ≠ n := by omega
    show (fsckNext cfg buckets t (one t n) n >>= pure) = _
    rw [fsckNext, lock_one ne]
    show ((if _ then _ else _) >>= pure) = _
    rw [if_pos (checks n (by omega)), unlock_one ne]
    rfl

end Latches

/-- An island is short, so a key that is not in its place is after it, also around the end. -/
theorem Settled.check (settled : Settled cfg buckets m) (valid : ∀ b, (buckets b).Valid)
    (few : (Probing.occupied cfg.size (table buckets)).card < cfg.maxbucketid / 4)
    (prev b : Nat) (lt : prev < cfg.size)
    (blank : (buckets (next cfg.size prev)).val = none → (buckets b).val = none) :
    fsckBucket cfg buckets prev (next cfg.size prev) b = true := by
  unfold fsckBucket
  split
  · next key =>
    have full := key ∘ (valid _).mp
    have two : 1 < cfg.size := by
      unfold Config.maxbucketid at few
      omega
    have lt' := next_lt lt two
    have near := settled.near _ lt' full
    have home := hashtableFunc_lt cfg (buckets (next cfg.size prev)).key
    generalize cfg.hashtableFunc _ = code at near home ⊢
    have short : dist cfg.size code (next cfg.size prev) + 1 < cfg.maxbucketid / 4 := by
      refine lt_of_le_of_lt (le_card home (dist_lt home lt') fun c at' close => ?_) few
      refine Probing.mem_occupied.mpr ⟨at', ?_⟩
      simpa [table, Bucket.entry] using near c at' (Nat.le_of_lt_succ close)
    unfold Config.maxbucketid at *
    dsimp only
    split
    · next moved =>
      have taken := near prev lt (by
        unfold Wheel.dist next along at *
        split_ifs at * <;> omega)
      refine decide_eq_true ⟨taken ∘ (valid _).mpr, taken, ?_⟩
      unfold Wheel.dist at short
      split at short <;> omega
    · rfl
  · next key => simp [blank ((valid _).mpr (not_not.mp key))]

/-- The checker accepts a table that was reached with room to spare, and returns with all latches
released, exactly if its first bucket is taken or its last one is not. -/
theorem fsck_accepts [DecidableEq T] [Fintype T] (cfg : Config) {w : World T V}
    (reached : Runs.Reached (run cfg) (Allowed cfg) .init w) (idle : ∀ t, w.pcs t = .idle)
    (room : Room cfg w) (t : T) :
    (hashtableFsck cfg w.buckets t w.muts = .ok w.muts ↔
      ((w.buckets 0).val = none → (w.buckets cfg.maxbucketid).val = none)) ∧
    ∀ b, w.muts b = none := by
  obtain ⟨order, m, inv⟩ := Reached.inv reached
  have free : ∀ b, w.muts b = none := by
    intro b
    cases latch : w.muts b with
    | none => rfl
    | some owner =>
      have held := inv.owned.owner b owner.1 owner.2 latch
      rw [World.held, idle] at held
      cases held
  have few := inv.few room
  have many : 0 < cfg.maxbucketid := by
    unfold Config.maxbucketid
    omega
  have check := (inv.settled idle).check inv.valid few
  have last : next cfg.size cfg.maxbucketid = 0 := by
    unfold next along Config.maxbucketid at *
    split <;> omega
  have inner : ∀ i < cfg.maxbucketid, next cfg.size i = i + 1 := by
    intro i lt
    unfold next along Config.maxbucketid at *
    split <;> omega
  have checked : hashtableFsck cfg w.buckets t w.muts =
      if fsckBucket cfg w.buckets cfg.maxbucketid 0 cfg.maxbucketid then .ok w.muts
      else .error .fails := by
    rw [(funext free : w.muts = fun _ => none)]
    refine Fallible.bind_ok rfl (Fallible.bind_ok (foldlM_fsckNext fun i lt => ?_)
      (Fallible.bind_ok (lock_one many.ne) ?_))
    · rw [← inner i lt]
      exact check i _ (Nat.lt_of_lt_pred lt) id
    · rw [unlock_one many.ne, unlock, one, update_self]
      simp only [if_true, Nat.le_refl]
      rw [update_idem, update_eq_self (f := fun _ => none)]
  refine ⟨⟨fun accepted empty => ?_, fun ends => ?_⟩, free⟩
  · have key : ¬ (w.buckets 0).key ≠ -1 := not_not.mpr ((inv.valid 0).mp empty)
    rw [checked, fsckBucket, if_neg key] at accepted
    exact Option.isNone_iff_eq_none.mp (by_contra fun taken => by simp [taken] at accepted)
  · rw [← last] at ends
    have ok := check cfg.maxbucketid _
      (Nat.sub_lt_of_pos_le Nat.one_pos (Nat.two_pow_pos cfg.bits)) ends
    rw [last] at ok
    rw [checked, if_pos ok]

instance [DecidableEq T] [Fintype T] (cfg : Config) (w : World T V) : Decidable (Room cfg w) :=
  inferInstanceAs (Decidable (_ < _))

/-- The keys 1, 33 and 65 are in the buckets after bucket 0. -/
theorem fsck_accepts_inserts : ∃ w : World (Fin 2) Nat, (w.buckets 3).key = 65 ∧
    hashtableFsck thirtyTwo w.buckets 0 w.muts = .ok w.muts ∧ ∀ b, w.muts b = none := by
  obtain ⟨w, ran, key, idle, room, empty⟩ : ∃ w,
      inserts.foldlM (Runs.tryStep (run thirtyTwo) (Allowed thirtyTwo)) .init = some w ∧
      (w.buckets 3).key = 65 ∧ (∀ t, w.pcs t = .idle) ∧ Room thirtyTwo w ∧
        (w.buckets 31).val = none := by
    decide +kernel
  have accepts := fsck_accepts thirtyTwo (Runs.Reached.start.steps ran) idle room 0
  exact ⟨w, key, accepts.1.mpr fun _ => empty, accepts.2⟩

/-- A key is in the last bucket, and bucket 0 is empty. -/
theorem fsck_rejects_last : ∃ w : World (Fin 2) Nat,
    Runs.Reached (run thirtyTwo) (Allowed thirtyTwo) .init w ∧ (∀ t, w.pcs t = .idle) ∧
      Room thirtyTwo w ∧ hashtableFsck thirtyTwo w.buckets 0 w.muts = .error .fails :=
  Runs.Reached.of_steps [.call 0 (.insert 31 10), .step 0, .step 0] (by decide +kernel)

end Stasis.ConcurrentHash
