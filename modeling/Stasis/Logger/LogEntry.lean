import Stasis.Library.LittleEndian

/-!
Log entries as the logs store them: the words of `struct __raw_log_entry`, and the bytes of
the entry that follow. How many bytes an entry has is a matter of its type.
-/
namespace Stasis
open LittleEndian List

inductive ForceMode where
  | commit
  | wal
deriving DecidableEq, Repr

/-- `sizeof(lsn_t)` -/
def lsnSize : Nat := 8

structure RawLogEntry where
  LSN : Int
  prevLSN : Int
  xid : Int
  type : Nat
  body : List UInt8
deriving DecidableEq, Repr

namespace RawLogEntry

def internalLog : Nat := 0
def xcommit : Nat := 2
def updateLog : Nat := 4
def clrLog : Nat := 7
def xprepare : Nat := 8

/-- `sizeof(struct __raw_log_entry)` -/
def rawSize : Nat := 24

/-- `sizeof(UpdateLogEntry)` -/
def updateSize : Nat := 24

def bytes (e : RawLogEntry) : List UInt8 :=
  encodeInt 8 e.LSN ++ (encodeInt 8 e.prevLSN ++ (encodeInt 4 e.xid ++ (encode 4 e.type ++ e.body)))

def ofBytes (l : List UInt8) : RawLogEntry :=
  ⟨decodeInt (l.take 8), decodeInt ((l.drop 8).take 8), decodeInt ((l.drop 16).take 4),
    decode ((l.drop 20).take 4), l.drop 24⟩

section
variable (e : RawLogEntry)

/-- `update.arg_size` -/
def argSize : Int := decodeInt ((e.body.drop 16).take 8)

/-- The size of an entry that is no CLR. -/
def sizeofPlain : Int :=
  if e.type = updateLog then rawSize + updateSize + e.argSize
  else if e.type = xprepare then rawSize + lsnSize
  else rawSize

/-- A CLR contains the entry it compensates, which is no CLR itself. -/
def sizeofLogEntry : Int :=
  if e.type = clrLog then rawSize + (ofBytes e.body).sizeofPlain else e.sizeofPlain

/-- What fits in the words of the entry, and the bytes that its type says it has. -/
structure Valid : Prop where
  lsn : -2 ^ 63 ≤ e.LSN ∧ e.LSN < 2 ^ 63
  prevLSN : -2 ^ 63 ≤ e.prevLSN ∧ e.prevLSN < 2 ^ 63
  xid : -2 ^ 31 ≤ e.xid ∧ e.xid < 2 ^ 31
  type : e.type < 2 ^ 32
  size : e.sizeofLogEntry = rawSize + e.body.length
  contents : e.type = clrLog → (ofBytes e.body).type ≠ clrLog

end

instance (e : RawLogEntry) : Decidable e.Valid :=
  decidable_of_iff
    ((-2 ^ 63 ≤ e.LSN ∧ e.LSN < 2 ^ 63) ∧ (-2 ^ 63 ≤ e.prevLSN ∧ e.prevLSN < 2 ^ 63) ∧
      (-2 ^ 31 ≤ e.xid ∧ e.xid < 2 ^ 31) ∧ e.type < 2 ^ 32 ∧
      e.sizeofLogEntry = rawSize + e.body.length ∧
      (e.type = clrLog → (ofBytes e.body).type ≠ clrLog))
    ⟨fun ⟨lsn, prev, xid, type, size, contents⟩ => ⟨lsn, prev, xid, type, size, contents⟩,
      fun h => ⟨h.lsn, h.prevLSN, h.xid, h.type, h.size, h.contents⟩⟩

theorem length_bytes (e : RawLogEntry) : e.bytes.length = rawSize + e.body.length := by
  simp only [bytes, length_append, length_encodeInt, length_encode, rawSize]
  omega

theorem ofBytes_bytes (valid : e.Valid) : ofBytes e.bytes = e := by
  have prev : e.bytes.drop 8 = encodeInt 8 e.prevLSN ++ (encodeInt 4 e.xid ++
      (encode 4 e.type ++ e.body)) := drop_left' (length_encodeInt 8 e.LSN)
  have id : e.bytes.drop 16 = encodeInt 4 e.xid ++ (encode 4 e.type ++ e.body) := by
    rw [← drop_drop (i := 8) (j := 8), prev]
    exact drop_left' (length_encodeInt 8 e.prevLSN)
  have kind : e.bytes.drop 20 = encode 4 e.type ++ e.body := by
    rw [← drop_drop (i := 4) (j := 16), id]
    exact drop_left' (length_encodeInt 4 e.xid)
  have rest : e.bytes.drop 24 = e.body := by
    rw [← drop_drop (i := 4) (j := 20), kind]
    exact drop_left' (length_encode 4 e.type)
  have first : e.bytes.take 8 = encodeInt 8 e.LSN := take_left' (length_encodeInt 8 e.LSN)
  have := valid.lsn
  have := valid.prevLSN
  have := valid.xid
  rw [ofBytes, first, prev, id, kind, rest, take_left' (length_encodeInt 8 e.prevLSN),
    take_left' (length_encodeInt 4 e.xid), take_left' (length_encode 4 e.type),
    decodeInt_encodeInt (by omega) (by omega), decodeInt_encodeInt (by omega) (by omega),
    decodeInt_encodeInt (by omega) (by omega), decode_encode valid.type]

end RawLogEntry
end Stasis
