import Mathlib.Data.List.Induction
import Mathlib.Data.List.Nodup
import Stasis.Log.History

/-!
The analysis pass of recovery.

Analysis remembers the newest LSN of every transaction in a hash table, and
keeps the newest LSNs of the unfinished ones in a list that is sorted in
decreasing order. The undo pass takes its starting points off this list.
-/
namespace Stasis
open Function List Option

def removeVal (list : List Int) (val : Int) : List Int := list.erase val

def addSortedVal : List Int → Int → List Int
  | [], val => [val]
  | x :: xs, val => if x < val then val :: x :: xs else x :: addSortedVal xs val

structure Analysis where
  transactionLSN : Int → Option Int
  rollbackLSNs : List Int

/-- One iteration. An INTERNALLOG entry of a real transaction fails the assertion. -/
def analysisEntry (a : Analysis) (e : LogEntry) : Option Analysis :=
  let list := match a.transactionLSN e.xid with
    | none => a.rollbackLSNs
    | some lsn => removeVal a.rollbackLSNs lsn
  let transactionLSN := update a.transactionLSN e.xid (some e.LSN)
  match e.payload with
  | .xcommit | .xend => some ⟨transactionLSN, list⟩
  | .updatelog _ | .clrlog _ | .xabort | .xprepare _ =>
    some ⟨transactionLSN, addSortedVal list e.LSN⟩
  | .internallog => if e.xid = invalidXid then some ⟨transactionLSN, list⟩ else none

def stasisRecoveryAnalysis (entries : List LogEntry) : Option (List Int) :=
  (entries.foldlM analysisEntry ⟨fun _ => none, []⟩).map Analysis.rollbackLSNs

/-- The entry leaves its transaction to be rolled back. -/
def Payload.Unfinished : Payload → Prop
  | .updatelog _ | .clrlog _ | .xabort | .xprepare _ => True
  | .xcommit | .xend | .internallog => False

theorem Payload.Unfinished.not_ends {p : Payload} (h : p.Unfinished) : ¬ p.Ends := by
  cases p with
  | xcommit | xend => exact absurd h id
  | internallog | updatelog _ | clrlog _ | xabort | xprepare _ => exact id

/-- What analysis knows about the entries that it has read. -/
structure AnalysisInv (entries : List LogEntry) (a : Analysis) : Prop where
  newest : ∀ xid, a.transactionLSN xid = (lastOf entries xid).map LogEntry.LSN
  sorted : a.rollbackLSNs.Pairwise fun x y => y < x
  scheduled : ∀ lsn, lsn ∈ a.rollbackLSNs ↔
    ∃ e, lastOf entries e.xid = some e ∧ e.payload.Unfinished ∧ e.LSN = lsn

variable {list : List Int} {e : LogEntry}

theorem mem_addSortedVal : x ∈ addSortedVal list val ↔ x = val ∨ x ∈ list := by
  induction list with
  | nil => simp [addSortedVal]
  | cons y ys ih =>
    unfold addSortedVal
    split
    · simp
    · simp only [mem_cons, ih]
      tauto

theorem addSortedVal_sorted (sorted : list.Pairwise fun x y => y < x) (fresh : val ∉ list) :
    (addSortedVal list val).Pairwise fun x y => y < x := by
  induction list with
  | nil => exact pairwise_singleton _ _
  | cons y ys ih =>
    obtain ⟨above, rest⟩ := pairwise_cons.mp sorted
    simp only [mem_cons, not_or] at fresh
    unfold addSortedVal
    split
    next lt =>
      refine pairwise_cons.mpr ⟨fun z hz => ?_, sorted⟩
      cases hz with
      | head => exact lt
      | tail _ hz => exact (above z hz).trans lt
    next ge =>
      refine pairwise_cons.mpr ⟨fun z hz => ?_, ih rest fresh.2⟩
      rcases mem_addSortedVal.mp hz with rfl | hz
      · omega
      · exact above z hz

theorem mem_without_stale (inv : AnalysisInv entries a)
    (ordered : entries.Pairwise fun x y => x.LSN < y.LSN) (lsn : Int) :
    lsn ∈ (match a.transactionLSN e.xid with
      | none => a.rollbackLSNs
      | some old => removeVal a.rollbackLSNs old) ↔
    ∃ d, lastOf entries d.xid = some d ∧ d.payload.Unfinished ∧ d.LSN = lsn ∧
      d.xid ≠ e.xid := by
  have nodup : a.rollbackLSNs.Nodup := inv.sorted.imp fun lt => (ne_of_lt lt).symm
  rw [inv.newest]
  cases last : lastOf entries e.xid with
  | none =>
    simp only [map_none, inv.scheduled]
    constructor
    · rintro ⟨d, newest, rest⟩
      refine ⟨d, newest, rest.1, rest.2, fun same => ?_⟩
      rw [same, last] at newest
      cases newest
    · rintro ⟨d, newest, rest⟩
      exact ⟨d, newest, rest.1, rest.2.1⟩
  | some old =>
    simp only [map_some, removeVal, nodup.mem_erase_iff, inv.scheduled]
    constructor
    · rintro ⟨ne, d, newest, unfinished, rfl⟩
      refine ⟨d, newest, unfinished, rfl, fun same => ne ?_⟩
      rw [same, last] at newest
      rw [some.inj newest]
    · rintro ⟨d, newest, unfinished, rfl, other⟩
      refine ⟨fun same => other ?_, d, newest, unfinished, rfl⟩
      obtain ⟨hd, _⟩ := mem_of_lastOf newest
      obtain ⟨hold, own⟩ := mem_of_lastOf last
      rw [eq_of_LSN_eq ordered hd hold same, own]

theorem analysisEntry_inv (inv : AnalysisInv entries a)
    (ordered : (entries ++ [e]).Pairwise fun x y => x.LSN < y.LSN)
    (internal : e.payload = .internallog → e.xid = invalidXid) :
    ∃ a', analysisEntry a e = some a' ∧ AnalysisInv (entries ++ [e]) a' := by
  obtain ⟨before, _, newer⟩ := pairwise_append.mp ordered
  have stale := mem_without_stale (e := e) inv before
  generalize list : (match a.transactionLSN e.xid with
    | none => a.rollbackLSNs
    | some old => removeVal a.rollbackLSNs old) = without at stale
  have sorted : without.Pairwise fun x y => y < x := by
    rw [← list]
    split
    · exact inv.sorted
    · exact inv.sorted.sublist erase_sublist
  have fresh : e.LSN ∉ without := by
    intro mem
    obtain ⟨d, newest, _, same, _⟩ := (stale e.LSN).mp mem
    have lt := newer d (mem_of_lastOf newest).1 e (mem_singleton_self e)
    omega
  have newest : ∀ xid, update a.transactionLSN e.xid (some e.LSN) xid =
      (lastOf (entries ++ [e]) xid).map LogEntry.LSN := by
    intro xid
    rw [lastOf_concat]
    by_cases same : e.xid = xid
    · subst same
      simp
    · rw [if_neg same, update_of_ne (Ne.symm same), inv.newest]
  have others : ∀ d : LogEntry, d.xid ≠ e.xid →
      lastOf (entries ++ [e]) d.xid = lastOf entries d.xid := by
    intro d other
    rw [lastOf_concat, if_neg (Ne.symm other)]
  have skip : ¬ e.payload.Unfinished →
      AnalysisInv (entries ++ [e]) ⟨update a.transactionLSN e.xid (some e.LSN),
        without⟩ := by
    intro finished
    refine ⟨newest, sorted, fun lsn => (stale lsn).trans ⟨?_, ?_⟩⟩
    · rintro ⟨d, last, unfinished, same, other⟩
      exact ⟨d, (others d other).trans last, unfinished, same⟩
    · rintro ⟨d, last, unfinished, same⟩
      have other : d.xid ≠ e.xid := by
        intro own
        rw [own, lastOf_concat, if_pos rfl] at last
        exact finished (some.inj last ▸ unfinished)
      exact ⟨d, (others d other).symm.trans last, unfinished, same, other⟩
  have add : e.payload.Unfinished →
      AnalysisInv (entries ++ [e]) ⟨update a.transactionLSN e.xid (some e.LSN),
        addSortedVal without e.LSN⟩ := by
    intro unfinished
    refine ⟨newest, addSortedVal_sorted sorted fresh, fun lsn => ?_⟩
    rw [mem_addSortedVal, stale]
    constructor
    · rintro (rfl | ⟨d, last, unfinished, same, other⟩)
      · exact ⟨e, by simp, unfinished, rfl⟩
      · exact ⟨d, (others d other).trans last, unfinished, same⟩
    · rintro ⟨d, last, unfinished, same⟩
      by_cases own : d.xid = e.xid
      · rw [own, lastOf_concat, if_pos rfl] at last
        exact .inl (same.symm.trans (congrArg LogEntry.LSN (some.inj last)).symm)
      · exact .inr ⟨d, (others d own).symm.trans last, unfinished, same, own⟩
  cases payload : e.payload with
  | xcommit | xend =>
    refine ⟨_, ?_, skip (by simp [payload, Payload.Unfinished])⟩
    simp only [analysisEntry, payload, list]
  | internallog =>
    refine ⟨_, ?_, skip (by simp [payload, Payload.Unfinished])⟩
    simp only [analysisEntry, payload, list]
    exact if_pos (internal payload)
  | updatelog _ | clrlog _ | xabort | xprepare _ =>
    refine ⟨_, ?_, add (by simp [payload, Payload.Unfinished])⟩
    simp only [analysisEntry, payload, list]

/-- Analysis schedules exactly the transactions whose newest entry does not end them. -/
theorem stasisRecoveryAnalysis_run (ordered : entries.Pairwise fun x y => x.LSN < y.LSN)
    (internal : ∀ e ∈ entries, e.payload = .internallog → e.xid = invalidXid) :
    ∃ list, stasisRecoveryAnalysis entries = some list ∧
      (list.Pairwise fun x y => y < x) ∧
      ∀ lsn, lsn ∈ list ↔
        ∃ e, lastOf entries e.xid = some e ∧ e.payload.Unfinished ∧ e.LSN = lsn := by
  suffices run : ∃ a, entries.foldlM analysisEntry ⟨fun _ => none, []⟩ = some a ∧
      AnalysisInv entries a by
    obtain ⟨a, run, inv⟩ := run
    exact ⟨a.rollbackLSNs, by simp [stasisRecoveryAnalysis, run], inv.sorted, inv.scheduled⟩
  induction entries using List.reverseRecOn with
  | nil => exact ⟨_, rfl, ⟨fun _ => rfl, List.Pairwise.nil, by simp⟩⟩
  | append_singleton entries e ih =>
    obtain ⟨a, run, inv⟩ := ih (pairwise_append.mp ordered).1
      fun d hd => internal d (mem_append_left _ hd)
    obtain ⟨a', step, inv'⟩ := analysisEntry_inv inv ordered (internal e (by simp))
    exact ⟨a', by simp [foldlM_append, run, step], inv'⟩

/-- The losers of every log. Only the loggers write internal entries, and they write them
for no transaction. -/
theorem stasisRecoveryAnalysis_losers (log : Log)
    (internal : ∀ e ∈ log.entries, e.payload = .internallog → e.xid = invalidXid) :
    ∃ rollbackLSNs, stasisRecoveryAnalysis log.entries = some rollbackLSNs ∧
      (rollbackLSNs.Pairwise fun x y => y < x) ∧
      (∀ xid last, lastOf log.entries xid = some last →
        (last.LSN ∈ rollbackLSNs ↔ last.payload.Unfinished)) ∧
      (∀ lsn ∈ rollbackLSNs, ∃ xid last, lastOf log.entries xid = some last ∧
        last.payload.Unfinished ∧ last.LSN = lsn) := by
  obtain ⟨list, run, sorted, scheduled⟩ := stasisRecoveryAnalysis_run log.ordered internal
  refine ⟨list, run, sorted, fun xid last newest => ?_, fun lsn mem => ?_⟩
  · obtain ⟨mem, own⟩ := mem_of_lastOf newest
    refine (scheduled last.LSN).trans ⟨?_, fun unfinished => ?_⟩
    · rintro ⟨e, last', unfinished, same⟩
      rwa [← log.entry_eq_of_LSN_eq (mem_of_lastOf last').1 mem same]
    · exact ⟨last, own ▸ newest, unfinished, rfl⟩
  · obtain ⟨e, newest, rest⟩ := (scheduled lsn).mp mem
    exact ⟨e.xid, e, newest, rest⟩

/-- Transaction 1 commits, and the next transaction takes its id and aborts. -/
def reusedXid : Log :=
  ((Log.empty .logToMemory).writeEntry (-1) 1 .xcommit).writeEntry (-1) 1 .xabort

theorem stasisRecoveryAnalysis_losers_reusedXid :
    stasisRecoveryAnalysis reusedXid.entries = some [1] ∧
    ∃ rollbackLSNs, stasisRecoveryAnalysis reusedXid.entries = some rollbackLSNs ∧
      ∀ xid last, lastOf reusedXid.entries xid = some last →
        (last.LSN ∈ rollbackLSNs ↔ last.payload.Unfinished) := by
  refine ⟨by decide, ?_⟩
  obtain ⟨list, run, _, exact, _⟩ := stasisRecoveryAnalysis_losers reusedXid (by decide)
  exact ⟨list, run, exact⟩

end Stasis
