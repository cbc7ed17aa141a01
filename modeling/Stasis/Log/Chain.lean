import Stasis.Log.Log

/-!
The chain of prevLSN links.

`Chain` is what the loop over previousInTransaction visits from an LSN: it stops
as soon as the next LSN is not positive. `Backed` is the chain as the entries
link it, down to INVALID_LSN. The two differ where a log hands out LSN zero.
-/
namespace Stasis
open List

inductive Chain (log : Log) : Int → List LogEntry → Prop
  | stop (off : Int) (h : ¬ 0 < off) : Chain log off []
  | visit (off : Int) (e : LogEntry) (es : List LogEntry) (pos : 0 < off)
      (read : log.readEntry off = some e) (rest : Chain log e.prevLSN es) :
      Chain log off (e :: es)

inductive Backed (log : Log) : Int → List LogEntry → Prop
  | nil : Backed log invalidLsn []
  | cons (e : LogEntry) (es : List LogEntry) (mem : e ∈ log.entries)
      (down : e.prevLSN < e.LSN) (rest : Backed log e.prevLSN es) :
      Backed log e.LSN (e :: es)

variable {log : Log}

theorem chain_writeEntry (chain : Chain log off es) (prevLSN xid : Int) (p : Payload) :
    Chain (log.writeEntry prevLSN xid p) off es := by
  induction chain with
  | stop off h => exact .stop off h
  | visit off e es pos read _ ih =>
    obtain ⟨he, rfl⟩ := log.readEntry_eq_some_iff.mp read
    exact .visit _ e es pos (Log.readEntry_of_mem _ (List.mem_append_left _ he)) ih

theorem chain_mem (chain : Chain log off es) (he : e ∈ es) : e ∈ log.entries := by
  induction chain with
  | stop off h => exact absurd he not_mem_nil
  | visit off d es pos read _ ih =>
    cases he with
    | head => exact (log.readEntry_eq_some_iff.mp read).1
    | tail _ he => exact ih he

theorem chain_sorted (chain : Chain log off es) (down : ∀ e ∈ es, e.prevLSN < e.LSN) :
    (∀ e ∈ es, e.LSN ≤ off) ∧ es.Pairwise fun a b => b.LSN < a.LSN := by
  induction chain with
  | stop off h => exact ⟨by simp, List.Pairwise.nil⟩
  | visit off e es pos read _ ih =>
    have at' := (log.readEntry_eq_some_iff.mp read).2
    have link := down e mem_cons_self
    obtain ⟨bound, sorted⟩ := ih fun d hd => down d (mem_cons_of_mem e hd)
    refine ⟨fun d hd => ?_, pairwise_cons.mpr ⟨fun d hd => ?_, sorted⟩⟩
    · cases hd with
      | head => omega
      | tail _ hd =>
        have := bound d hd
        omega
    · have := bound d hd
      omega

section
variable (backed : Backed log lsn es)
include backed

theorem backed_writeEntry (prevLSN xid : Int) (p : Payload) :
    Backed (log.writeEntry prevLSN xid p) lsn es := by
  induction backed with
  | nil => exact .nil
  | cons e es mem down _ ih => exact .cons e es (mem_append_left _ mem) down ih

theorem backed_lt_next : lsn < log.nextAvailableLSN := by
  cases backed with
  | nil =>
    have := log.nextAvailableLSN_nonneg
    exact lt_of_lt_of_le (by decide) this
  | cons e es mem down rest => exact log.below e mem

theorem backed_mem (he : e ∈ es) : e ∈ log.entries ∧ e.prevLSN < e.LSN := by
  induction backed with
  | nil => exact absurd he not_mem_nil
  | cons d es mem down _ ih =>
    cases he with
    | head => exact ⟨mem, down⟩
    | tail _ he => exact ih he

theorem backed_concat (xid : Int) (p : Payload) :
    Backed (log.writeEntry lsn xid p) log.nextAvailableLSN
      (log.reserveEntry lsn xid p :: es) :=
  .cons (log.reserveEntry lsn xid p) es (by simp) (backed_lt_next backed)
    (backed_writeEntry backed lsn xid p)

theorem backed_eq_nil_of_neg (h : lsn < 0) : es = [] := by
  cases backed with
  | nil => rfl
  | cons e es mem down rest =>
    have := log.LSN_nonneg mem
    omega

theorem chain_of_backed : Chain log lsn (es.filter fun e => 0 < e.LSN) := by
  induction backed with
  | nil => exact .stop _ (by decide)
  | cons e es mem down rest ih =>
    by_cases pos : 0 < e.LSN
    · rw [filter_cons_of_pos (by simpa using pos)]
      exact .visit e.LSN e _ pos (log.readEntry_of_mem mem) ih
    · have nonneg := log.LSN_nonneg mem
      rw [backed_eq_nil_of_neg rest (by omega)]
      have stop : Chain log e.LSN [] := .stop e.LSN pos
      simpa [pos] using stop

theorem backed_prevLSN_nonneg (zero : ∃ e ∈ es, e.LSN = 0) (he : e ∈ es) (pos : 0 < e.LSN) :
    0 ≤ e.prevLSN := by
  induction backed with
  | nil => exact absurd he not_mem_nil
  | cons d es mem down rest ih =>
    obtain ⟨z, hz, first⟩ := zero
    have last : d.LSN = 0 → es = [] := fun first => backed_eq_nil_of_neg rest (by omega)
    cases hz with
    | head =>
      cases he with
      | head => omega
      | tail _ he =>
        rw [last first] at he
        exact absurd he not_mem_nil
    | tail _ hz =>
      cases he with
      | head =>
        by_contra neg
        rw [backed_eq_nil_of_neg rest (by omega)] at hz
        exact absurd hz not_mem_nil
      | tail _ he => exact ih ⟨z, hz, first⟩ he

end

theorem chain_link (chain : Chain log off es) :
    off ≤ 0 ∨ ∃ d ∈ log.entries, d.LSN = off := by
  cases chain with
  | stop _ h => exact .inl (by omega)
  | visit _ e es pos read rest => exact .inr ⟨e, log.readEntry_eq_some_iff.mp read⟩

theorem backed_link (backed : Backed log lsn es) :
    lsn ≤ 0 ∨ ∃ d ∈ log.entries, d.LSN = lsn := by
  cases backed with
  | nil => exact .inl (by decide)
  | cons e es mem down rest => exact .inr ⟨e, mem, rfl⟩

/-- Two logs that differ by at most one entry at the end. -/
def Grew (log log' : Log) : Prop :=
  log' = log ∨ ∃ prevLSN xid p, log' = log.writeEntry prevLSN xid p

namespace Grew

theorem chain (grew : Grew log log') (chain : Chain log off es) : Chain log' off es := by
  rcases grew with rfl | ⟨prevLSN, xid, p, rfl⟩
  · exact chain
  · exact chain_writeEntry chain prevLSN xid p

theorem backed (grew : Grew log log') (backed : Backed log lsn es) : Backed log' lsn es := by
  rcases grew with rfl | ⟨prevLSN, xid, p, rfl⟩
  · exact backed
  · exact backed_writeEntry backed prevLSN xid p

theorem mem (grew : Grew log log') (he : e ∈ log.entries) : e ∈ log'.entries := by
  rcases grew with rfl | ⟨prevLSN, xid, p, rfl⟩
  · exact he
  · exact mem_append_left _ he

end Grew
end Stasis
