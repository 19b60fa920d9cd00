import Surch.Lib.SortedMap
import Surch.Store.DataIo

/-! The table of a segment's fields, and its bytes: `FieldInfos` with its two lookup tables,
`encode_field_infos` and `decode_field_infos`. -/
namespace Surch.Index
open Surch.Lib Surch.Lib.Leb128 Surch.Store

section Table

inductive FieldInfosError where
  | duplicateFieldName (name : String)
  | duplicateFieldNumber (number : Nat)
deriving DecidableEq

inductive IndexOptions where
  | none
  | docs
  | docsAndFreqs
  | docsAndFreqsAndPositions
  | docsAndFreqsAndPositionsAndOffsets
deriving DecidableEq

inductive DocValuesType where
  | none
  | numeric
  | binary
  | sorted
  | sortedNumeric
  | sortedSet
deriving DecidableEq

structure FieldInfo where
  name : String
  number : Nat
  indexOptions : IndexOptions
  docValuesType : DocValuesType
  omitNorms : Bool
  storePayloads : Bool
deriving DecidableEq

def indexFields : (position : Nat) → List FieldInfo → SortedMap String Nat → SortedMap Nat Nat →
    Except FieldInfosError (SortedMap String Nat × SortedMap Nat Nat)
  | _, [], byName, byNumber => .ok (byName, byNumber)
  | position, field :: fields, byName, byNumber => do
    refuse (byName.get? field.name).isSome (.duplicateFieldName field.name)
    let byName := byName.upsert field.name fun _ => position
    refuse (byNumber.get? field.number).isSome (.duplicateFieldNumber field.number)
    let byNumber := byNumber.upsert field.number fun _ => position
    indexFields (position + 1) fields byName byNumber

/- The lookup tables are those of the fields. -/
structure FieldInfos where
  fields : List FieldInfo
  byName : SortedMap String Nat
  byNumber : SortedMap Nat Nat
  built : indexFields 0 fields .empty .empty = .ok (byName, byNumber)

def FieldInfos.new (fields : List FieldInfo) : Except FieldInfosError FieldInfos :=
  match built : indexFields 0 fields .empty .empty with
  | .ok (byName, byNumber) => .ok ⟨fields, byName, byNumber, built⟩
  | .error e => .error e

end Table

section Codec

inductive FieldInfosCodecError where
  | invalidMagic (actual : List UInt8)
  | fieldCountOverflow (count : Nat)
  | negativeFieldCount (count : Int32)
  | fieldNumberOverflow (number : Nat)
  | negativeFieldNumber (number : Int32)
  | unknownIndexOptions (value : UInt8)
  | unknownDocValuesType (value : UInt8)
  | invalidBoolean (field : String) (value : UInt8)
  | dataIo (error : DataIoError)
  | fieldInfos (error : FieldInfosError)
deriving DecidableEq

abbrev FieldInfosReader := Reader FieldInfosCodecError UInt8

/- `b"SFI0"`. -/
def fieldInfosMagic : List UInt8 := [0x53, 0x46, 0x49, 0x30]

def checkedLen (count : Nat) : Except FieldInfosCodecError Int32 :=
  if count < 2 ^ 31 then .ok (Int32.ofNat count) else .error (.fieldCountOverflow count)

def checkedCount (count : Int32) : Except FieldInfosCodecError Nat :=
  if 0 ≤ count.toInt then .ok count.toInt.toNat else .error (.negativeFieldCount count)

def checkedFieldNumber (number : Nat) : Except FieldInfosCodecError Int32 :=
  if number < 2 ^ 31 then .ok (Int32.ofNat number) else .error (.fieldNumberOverflow number)

def checkedReadFieldNumber (number : Int32) : Except FieldInfosCodecError Nat :=
  if 0 ≤ number.toInt then .ok number.toInt.toNat else .error (.negativeFieldNumber number)

def indexOptionsToByte : IndexOptions → UInt8
  | .none => 0
  | .docs => 1
  | .docsAndFreqs => 2
  | .docsAndFreqsAndPositions => 3
  | .docsAndFreqsAndPositionsAndOffsets => 4

def indexOptionsFromByte (value : UInt8) : Except FieldInfosCodecError IndexOptions :=
  if value = 0 then .ok .none
  else if value = 1 then .ok .docs
  else if value = 2 then .ok .docsAndFreqs
  else if value = 3 then .ok .docsAndFreqsAndPositions
  else if value = 4 then .ok .docsAndFreqsAndPositionsAndOffsets
  else .error (.unknownIndexOptions value)

def docValuesTypeToByte : DocValuesType → UInt8
  | .none => 0
  | .numeric => 1
  | .binary => 2
  | .sorted => 3
  | .sortedNumeric => 4
  | .sortedSet => 5

def docValuesTypeFromByte (value : UInt8) : Except FieldInfosCodecError DocValuesType :=
  if value = 0 then .ok .none
  else if value = 1 then .ok .numeric
  else if value = 2 then .ok .binary
  else if value = 3 then .ok .sorted
  else if value = 4 then .ok .sortedNumeric
  else if value = 5 then .ok .sortedSet
  else .error (.unknownDocValuesType value)

def boolToByte (value : Bool) : UInt8 := if value then 1 else 0

def boolFromByte (field : String) (value : UInt8) : Except FieldInfosCodecError Bool :=
  if value = 0 then .ok false
  else if value = 1 then .ok true
  else .error (.invalidBoolean field value)

def encodeField (field : FieldInfo) : Except FieldInfosCodecError (List UInt8) := do
  let name ← (DataOutput.writeString field.name).mapError .dataIo
  let number ← checkedFieldNumber field.number
  return name ++ DataOutput.writeVint number ++ [indexOptionsToByte field.indexOptions,
    docValuesTypeToByte field.docValuesType, boolToByte field.omitNorms, boolToByte field.storePayloads]

def encodeFieldInfos (fieldInfos : FieldInfos) : Except FieldInfosCodecError (List UInt8) := do
  let count ← checkedLen fieldInfos.fields.length
  let fields ← fieldInfos.fields.mapM encodeField
  return fieldInfosMagic ++ DataOutput.writeVint count ++ fields.flatten

def ofDataIo {α : Type} (reader : Reader DataIoError UInt8 α) : FieldInfosReader α := fun input =>
  (reader input).mapError .dataIo

variable (size : Nat)

def readField : FieldInfosReader FieldInfo := do
  let name ← ofDataIo (DataInput.readString size)
  let number ← checkedReadFieldNumber (← ofDataIo (DataInput.readVint size))
  let indexOptions ← indexOptionsFromByte (← ofDataIo (DataInput.readByte size))
  let docValuesType ← docValuesTypeFromByte (← ofDataIo (DataInput.readByte size))
  let omitNorms ← boolFromByte "omit_norms" (← ofDataIo (DataInput.readByte size))
  let storePayloads ← boolFromByte "store_payloads" (← ofDataIo (DataInput.readByte size))
  return { name, number, indexOptions, docValuesType, omitNorms, storePayloads }

def readFields (count : Nat) : FieldInfosReader (List FieldInfo) := readMany (readField size) count

/- What is left behind the fields is not looked at. -/
def decodeFieldInfos (bytes : List UInt8) : Except FieldInfosCodecError FieldInfos := do
  let (fields, _) ← (do
    let actualMagic ← ofDataIo (DataInput.readBytes bytes.length 4)
    refuse (actualMagic ≠ fieldInfosMagic) (.invalidMagic actualMagic)
    let count ← checkedCount (← ofDataIo (DataInput.readVint bytes.length))
    readFields bytes.length count : FieldInfosReader (List FieldInfo)) bytes
  (FieldInfos.new fields).mapError .fieldInfos

end Codec

end Surch.Index
