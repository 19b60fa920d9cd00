import Surch.Lib.Leb128
import Surch.Index.Subfields

/-! `DataInput` over a byte array and `DataOutput` into one. The position of an input is represented by the
bytes that are left; it ends at the size of the array. -/
namespace Surch.Store
open Surch.Lib Surch.Lib.Leb128 Surch.Index

inductive DataIoError where
  | unexpectedEof (position : Nat)
  | invalidVarintEncoding (kind : String)
  | invalidUtf8
  | negativeLength (length : Int32)
  | lengthOverflow (length : Nat)
  | negativeVLong (value : Int64)
deriving DecidableEq

def zigZagEncodeI64 (value : Int64) : UInt64 := (value.toUInt64 <<< 1) ^^^ (value >>> 63).toUInt64

def zigZagDecodeI64 (value : UInt64) : Int64 := (value >>> 1).toInt64 ^^^ -(value &&& 1).toInt64

namespace DataInput

variable (size : Nat)

def readByte : Reader DataIoError UInt8 UInt8 := do
  let bytes ← readArray (.unexpectedEof size) 1
  return bytes.headD 0

def readBytes (length : Nat) : Reader DataIoError UInt8 (List UInt8) :=
  readArray (.unexpectedEof size) length

/- After the fifth byte there is nothing to shift. -/
def readVint : Reader DataIoError UInt8 Int32 := do
  let value ← readGroups 32 (fun _ => .error (.invalidVarintEncoding "vint")) (.unexpectedEof size) 5 0 0
  return (UInt32.ofNat value).toInt32

def readVlong : Reader DataIoError UInt8 Int64 := do
  let value ← readGroups 64 (fun _ => .error (.invalidVarintEncoding "vlong")) (.unexpectedEof size) 10 0 0
  return (UInt64.ofNat value).toInt64

def readZlong : Reader DataIoError UInt8 Int64 := do
  let value ← readVlong size
  return zigZagDecodeI64 value.toUInt64

def checkedVintLength (length : Int32) : Except DataIoError Nat :=
  if 0 ≤ length.toInt then .ok length.toInt.toNat else .error (.negativeLength length)

def readString : Reader DataIoError UInt8 String := do
  let length ← checkedVintLength (← readVint size)
  let bytes ← readBytes size length
  match fromUtf8 bytes with
  | some text => return text
  | none => throw .invalidUtf8

end DataInput

namespace DataOutput

def checkedUsizeLength (length : Nat) : Except DataIoError Int32 :=
  if length < 2 ^ 31 then .ok (Int32.ofNat length) else .error (.lengthOverflow length)

def writeVint (value : Int32) : List UInt8 := writeGroups 4 value.toUInt32.toNat

def writeSignedVlong (value : UInt64) : List UInt8 := writeGroups 9 value.toNat

def writeVlong (value : Int64) : Except DataIoError (List UInt8) :=
  if value < 0 then .error (.negativeVLong value) else .ok (writeSignedVlong value.toUInt64)

def writeZlong (value : Int64) : List UInt8 := writeSignedVlong (zigZagEncodeI64 value)

def writeString (value : String) : Except DataIoError (List UInt8) := do
  let length ← checkedUsizeLength (utf8 value).length
  return writeVint length ++ utf8 value

end DataOutput

section ZigZag

theorem sign_fill (x : BitVec 64) : x.sshiftRight 63 = if x.msb then BitVec.allOnes 64 else 0#64 := by
  ext i inside
  rw [BitVec.getElem_sshiftRight]
  by_cases first : 63 + i < 64
  · obtain rfl : i = 0 := by omega
    have top : x[63] = x.msb := by
      rw [BitVec.msb_eq_getLsbD_last, BitVec.getLsbD_eq_getElem]
    rw [dif_pos first, top]
    cases x.msb <;> simp
  · rw [dif_neg first]
    cases x.msb
    · simp
    · rw [if_pos rfl, BitVec.getElem_allOnes]

theorem zigZag_bits (x : BitVec 64) :
    ((x <<< 1 ^^^ x.sshiftRight 63) >>> 1) ^^^ -((x <<< 1 ^^^ x.sshiftRight 63) &&& 1#64) = x := by
  have low (y : BitVec 64) : y &&& 1#64 = if y.getLsbD 0 then 1#64 else 0#64 := by
    rw [BitVec.and_one_eq_setWidth_ofBool_getLsbD]
    cases y.getLsbD 0 <;> rfl
  have top : x.getLsbD 63 = x.msb := (BitVec.msb_eq_getLsbD_last x).symm
  rw [sign_fill, low]
  cases sign : x.msb with
  | false =>
    have even : (x <<< 1 ^^^ if false = true then BitVec.allOnes 64 else 0#64).getLsbD 0 = false := by
      simp
    rw [even]
    simp only [Bool.false_eq_true, if_false, BitVec.xor_zero, BitVec.neg_zero]
    ext i inside
    rw [← BitVec.getLsbD_eq_getElem, ← BitVec.getLsbD_eq_getElem, BitVec.getLsbD_ushiftRight,
      BitVec.getLsbD_shiftLeft]
    by_cases last : i = 63
    · subst last
      rw [top, sign]
      rfl
    · simp [show 1 + i < 64 by omega]
  | true =>
    have odd : (x <<< 1 ^^^ if true = true then BitVec.allOnes 64 else 0#64).getLsbD 0 = true := by
      simp
    rw [odd, if_pos rfl, if_pos rfl, BitVec.neg_one_eq_allOnes, BitVec.xor_allOnes, BitVec.xor_allOnes]
    ext i inside
    rw [BitVec.getElem_not, ← BitVec.getLsbD_eq_getElem, ← BitVec.getLsbD_eq_getElem,
      BitVec.getLsbD_ushiftRight, BitVec.getLsbD_not, BitVec.getLsbD_shiftLeft]
    by_cases last : i = 63
    · subst last
      rw [top, sign]
      rfl
    · simp [show 1 + i < 64 by omega]

theorem zigZagDecode_encode (value : Int64) : zigZagDecodeI64 (zigZagEncodeI64 value) = value := by
  apply Int64.toBitVec_inj.mp
  exact zigZag_bits value.toBitVec
end ZigZag

namespace DataInput

variable (size : Nat)

theorem reads_vint (value : Int32) : Reads (readVint size) (DataOutput.writeVint value) value := by
  have small := value.toUInt32.toNat_lt
  refine (reads_writeGroups (small.trans (by decide)) small (by decide)).bind_silent ?_
  rw [UInt32.ofNat_toNat, Int32.toInt32_toUInt32]
  exact .pure value

theorem reads_signedVlong (value : UInt64) :
    Reads (readVlong size) (DataOutput.writeSignedVlong value) value.toInt64 := by
  have small := value.toNat_lt
  refine (reads_writeGroups (small.trans (by decide)) small (by decide)).bind_silent ?_
  rw [UInt64.ofNat_toNat]
  exact .pure value.toInt64

theorem reads_vlong {value : Int64} (positive : ¬ value < 0) :
    ∃ written, DataOutput.writeVlong value = .ok written ∧ Reads (readVlong size) written value := by
  refine ⟨_, if_neg positive, ?_⟩
  have read := reads_signedVlong size value.toUInt64
  rwa [Int64.toInt64_toUInt64] at read

theorem reads_zlong (value : Int64) : Reads (readZlong size) (DataOutput.writeZlong value) value := by
  refine (reads_signedVlong size (zigZagEncodeI64 value)).bind_silent ?_
  rw [UInt64.toUInt64_toInt64, zigZagDecode_encode]
  exact .pure value

end DataInput

end Surch.Store
