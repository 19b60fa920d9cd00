import Mathlib.Data.Nat.Digits.Defs
import Surch.Lib.Leb128
import Surch.Lib.SortedMap
import Surch.Store.WalFile

/-! `segments_N` files: the commit of an index, its name in base 36, and how it is written and read. A
reader's position in the buffer is represented by the bytes that are left. -/
namespace Surch.Index
open Surch.Lib Surch.Lib.Leb128 Surch.Store

/- Signed, as `i32` is ordered. -/
instance linearOrderInt32 : LinearOrder Int32 where
  le_refl a := Int32.le_iff_toInt_le.mpr (Int.le_refl _)
  le_trans a b c ab bc :=
    Int32.le_iff_toInt_le.mpr (Int.le_trans (Int32.le_iff_toInt_le.mp ab) (Int32.le_iff_toInt_le.mp bc))
  le_antisymm a b ab ba :=
    Int32.toInt_inj.mp (Int.le_antisymm (Int32.le_iff_toInt_le.mp ab) (Int32.le_iff_toInt_le.mp ba))
  le_total a b := by
    rw [Int32.le_iff_toInt_le, Int32.le_iff_toInt_le]
    exact Int.le_total _ _
  lt_iff_le_not_ge a b := by
    rw [Int32.le_iff_toInt_le, Int32.le_iff_toInt_le, Int32.lt_iff_toInt_lt]
    omega
  toDecidableLE := inferInstance
  toDecidableEq := inferInstance
  toDecidableLT := inferInstance

section Infos

inductive SegmentInfosError where
  | oldSegmentsGen
  | notSegmentsFile (fileName : String)
  | invalidGeneration (fileName : String)
  | unsupportedIndexCreatedVersion (major : Int32)
  | generationDecrease (requested current : Int)
  | codec (error : CodecUtilError)
  | unexpectedEof
  | suffixMismatch (expected actual : String)
  | invalidSegmentCount (count : Int32)
  | invalidSegmentCommitInfoIdMarker (marker : UInt8)
  | unsupportedUserData (count : Int32)
  | trailingBytes (count : Nat)
deriving DecidableEq

/- What a call ends in: an error, or an arithmetic operation whose result does not fit, which panics where
overflows are checked and wraps where they are not. -/
inductive CommitFailure where
  | error (error : SegmentInfosError)
  | overflow
deriving DecidableEq

/- `[u8; 16]`. -/
abbrev Id := { bytes : List UInt8 // bytes.length = 16 }

abbrev StringSet := SortedMap String Unit

structure SegmentMetadata where
  name : String
  id : Id
  codec : String
deriving DecidableEq

structure SegmentCommitInfo where
  metadata : SegmentMetadata
  delGen : Int64
  delCount : Int32
  fieldInfosGen : Int64
  docValuesGen : Int64
  softDelCount : Int32
  sciId : Option Id
  fieldInfosFiles : StringSet
  docValuesUpdateFiles : SortedMap Int32 StringSet
deriving DecidableEq

/- Generations are `i64`; where they are added to, the result is checked. -/
structure SegmentInfos where
  indexCreatedVersionMajor : Int32
  generation : Int
  lastGeneration : Int
  id : Option Id
  luceneVersion : Option (Int32 × Int32 × Int32)
  userData : SortedMap String String
  segments : List SegmentCommitInfo
  counter : Int64
  version : Int64
deriving DecidableEq

structure SegmentInfosCommit where
  fileName : String
  bytes : List UInt8
deriving DecidableEq

def SegmentInfos.new (major : Int32) : Except SegmentInfosError SegmentInfos :=
  if major < 6 then .error (.unsupportedIndexCreatedVersion major)
  else .ok {
    indexCreatedVersionMajor := major, generation := 0, lastGeneration := 0, id := none,
    luceneVersion := none, userData := .empty, segments := [], counter := 0, version := 0 }

def SegmentInfos.getNextPendingGeneration (infos : SegmentInfos) : Except CommitFailure Int :=
  if infos.generation = -1 then .ok 1
  else if infos.generation + 1 < 2 ^ 63 then .ok (infos.generation + 1)
  else .error .overflow

def SegmentInfos.setNextWriteGeneration (infos : SegmentInfos) (generation : Int) :
    Except SegmentInfosError SegmentInfos :=
  if generation < infos.generation then .error (.generationDecrease generation infos.generation)
  else .ok { infos with generation }

end Infos

section FileNames

def segmentsName : String := "segments"
def oldSegmentsGen : String := "segments.gen"

def base36Char (digit : Nat) : Char :=
  if digit ≤ 9 then Char.ofNat ('0'.toNat + digit) else Char.ofNat ('a'.toNat + (digit - 10))

def formatBase36 (value : Int) : String :=
  if value = 0 then "0"
  else
    let digits := (Nat.digits 36 value.natAbs).map base36Char
    String.ofList (if value < 0 then digits ++ ['-'] else digits).reverse

def base36Digit (ch : Char) : Option Nat :=
  if '0' ≤ ch ∧ ch ≤ '9' then some (ch.toNat - '0'.toNat)
  else if 'a' ≤ ch ∧ ch ≤ 'z' then some (ch.toNat - 'a'.toNat + 10)
  else if 'A' ≤ ch ∧ ch ≤ 'Z' then some (ch.toNat - 'A'.toNat + 10)
  else none

/- `checked_mul` and `checked_add` on `i64`. -/
def parseBase36Loop : List Char → (parsed : Nat) → Option Nat
  | [], parsed => some parsed
  | ch :: rest, parsed => do
    let digit ← base36Digit ch
    let shifted ← if parsed * 36 < 2 ^ 63 then some (parsed * 36) else none
    let parsed ← if shifted + digit < 2 ^ 63 then some (shifted + digit) else none
    parseBase36Loop rest parsed

def parseBase36 (value : List Char) : Option Nat :=
  if value = [] then none else parseBase36Loop value 0

def segmentFileName (segmentName segmentSuffix extension : String) : String :=
  if extension = "" ∧ segmentSuffix = "" then segmentName
  else segmentName ++ (if segmentSuffix = "" then "" else "_" ++ segmentSuffix) ++
    if extension = "" then "" else "." ++ extension

def fileNameFromGeneration (base extension : String) (generation : Int) : Option String :=
  if generation = -1 then none
  else if generation = 0 then some (segmentFileName base "" extension)
  else some (base ++ "_" ++ formatBase36 generation ++ if extension = "" then "" else "." ++ extension)

/- Behind `segments` one byte is skipped, whatever it is; a longer character there has no such end. -/
def generationFromSegmentsFileName (fileName : String) : Except SegmentInfosError Int :=
  if fileName = oldSegmentsGen then .error .oldSegmentsGen
  else if fileName = segmentsName then .ok 0
  else if segmentsName.toList.isPrefixOf fileName.toList then
    match fileName.toList.drop segmentsName.toList.length with
    | [] => .error (.invalidGeneration fileName)
    | separator :: generation =>
      if separator.utf8Size ≠ 1 then .error (.invalidGeneration fileName)
      else match parseBase36 generation with
        | some generation => .ok generation
        | none => .error (.invalidGeneration fileName)
  else .error (.notSegmentsFile fileName)

/- The loop, from the highest generation so far. -/
def lastCommitLoop : List String → (maxGeneration : Int) → Except SegmentInfosError Int
  | [], maxGeneration => .ok maxGeneration
  | file :: files, maxGeneration =>
    if segmentsName.toList.isPrefixOf file.toList ∧ ¬ oldSegmentsGen.toList.isPrefixOf file.toList then do
      let generation ← generationFromSegmentsFileName file
      lastCommitLoop files (if generation > maxGeneration then generation else maxGeneration)
    else lastCommitLoop files maxGeneration

def getLastCommitGeneration (files : List String) : Except SegmentInfosError Int := lastCommitLoop files (-1)

example : formatBase36 1331 = "10z" ∧ fileNameFromGeneration segmentsName "" 37 = some "segments_11" ∧
    generationFromSegmentsFileName "segments_11" = .ok 37 := by
  decide +kernel

end FileNames

section Writing

def segmentsCodec : String := "segments"
def segmentsVersion74 : Int32 := 9
def segmentsVersionCurrent : Int32 := 10
def luceneLatestVersion : Int32 × Int32 × Int32 := (11, 0, 0)

namespace SegmentInfos

def writeVint (value : Int32) : List UInt8 := writeGroups 4 value.toUInt32.toNat

def writeVlong (value : UInt64) : List UInt8 := writeGroups 9 value.toNat

def writeBeI64 (value : Int64) : List UInt8 := beBytes 8 value.toUInt64.toNat

def writeString (value : String) : List UInt8 :=
  writeVint (Int32.ofNat (utf8 value).length) ++ utf8 value

def writeMapOfStrings (map : SortedMap String String) : List UInt8 :=
  writeVint (Int32.ofNat map.entries.length) ++
    map.entries.flatMap fun entry => writeString entry.1 ++ writeString entry.2

def writeSetOfStrings (set : StringSet) : List UInt8 :=
  writeVint (Int32.ofNat set.keys.length) ++ set.keys.flatMap writeString

def writeSegmentCommitInfo (segment : SegmentCommitInfo) : List UInt8 :=
  writeString segment.metadata.name ++ segment.metadata.id.val ++ writeString segment.metadata.codec ++
    writeBeI64 segment.delGen ++ beI32 segment.delCount ++ writeBeI64 segment.fieldInfosGen ++
    writeBeI64 segment.docValuesGen ++ beI32 segment.softDelCount ++
    (match segment.sciId with
      | some id => 1 :: id.val
      | none => [0]) ++
    writeSetOfStrings segment.fieldInfosFiles ++
    beI32 (Int32.ofNat segment.docValuesUpdateFiles.entries.length) ++
    segment.docValuesUpdateFiles.entries.flatMap fun entry => beI32 entry.1 ++ writeSetOfStrings entry.2

def writeFields (infos : SegmentInfos) (id : Id) (suffix : String) : List UInt8 :=
  id.val ++ (UInt8.ofNat (utf8 suffix).length :: utf8 suffix) ++
    writeVint luceneLatestVersion.1 ++ writeVint luceneLatestVersion.2.1 ++
    writeVint luceneLatestVersion.2.2 ++ writeVint infos.indexCreatedVersionMajor ++
    writeBeI64 infos.version ++ writeVlong infos.counter.toUInt64 ++
    beI32 (Int32.ofNat infos.segments.length) ++ infos.segments.flatMap writeSegmentCommitInfo ++
    writeMapOfStrings infos.userData

/- The file has a name, since the generation is not `-1`. -/
def writeCommit (infos : SegmentInfos) (id : Id) : Except CommitFailure (SegmentInfos × SegmentInfosCommit) := do
  let generation ← infos.getNextPendingGeneration
  let infos := { infos with
    generation, lastGeneration := generation, id := some id, luceneVersion := some luceneLatestVersion }
  let suffix := formatBase36 generation
  let header ← (writeHeader segmentsCodec segmentsVersionCurrent).mapError fun e => .error (.codec e)
  let bytes := writeFooter (header ++ infos.writeFields id suffix)
  let fileName := (fileNameFromGeneration segmentsName "" generation).getD ""
  return (infos, { fileName, bytes })

end SegmentInfos

end Writing

section Reading

namespace SegmentInfos

abbrev CommitReader := Reader SegmentInfosError UInt8

/- After five groups, or ten, the value is what it is. -/
def readVint : CommitReader Int32 := do
  let value ← readGroups 32 .ok SegmentInfosError.unexpectedEof 5 0 0
  return (UInt32.ofNat value).toInt32

def readVlong : CommitReader UInt64 := do
  let value ← readGroups 64 .ok SegmentInfosError.unexpectedEof 10 0 0
  return UInt64.ofNat value

def readByte : CommitReader UInt8 := do
  let bytes ← readArray .unexpectedEof 1
  return bytes.headD 0

def readId : CommitReader Id := fun input =>
  if long : 16 ≤ input.length then .ok (⟨input.take 16, List.length_take_of_le long⟩, input.drop 16)
  else .error .unexpectedEof

def readBeI32 : CommitReader Int32 := do
  let bytes ← readArray .unexpectedEof 4
  return (UInt32.ofNat (beNat bytes)).toInt32

def readBeI64 : CommitReader Int64 := do
  let bytes ← readArray .unexpectedEof 8
  return (UInt64.ofNat (beNat bytes)).toInt64

def readUtf8 (length : Nat) : CommitReader String := do
  let bytes ← readArray .unexpectedEof length
  match fromUtf8 bytes with
  | some text => return text
  | none => throw .unexpectedEof

def readByteString : CommitReader String := do
  let length ← readByte
  readUtf8 length.toNat

def readCount (negative : Int32 → SegmentInfosError) : CommitReader Nat := do
  let count ← readVint
  refuse (count < 0) (negative count)
  return count.toInt.toNat

def readString : CommitReader String := do
  let length ← readCount fun _ => .unexpectedEof
  readUtf8 length

def readMapOfStrings : CommitReader (SortedMap String String) := do
  let count ← readCount .unsupportedUserData
  let entries ← readMany (do
    let key ← readString
    let value ← readString
    return (key, value)) count
  return entries.foldl (fun map entry => map.upsert entry.1 fun _ => entry.2) .empty

def readSetOfStrings : CommitReader StringSet := do
  let count ← readCount fun _ => .unexpectedEof
  let values ← readMany readString count
  return values.foldl (fun set value => set.upsert value fun _ => ()) .empty

def readSciId : CommitReader (Option Id) := do
  let marker ← readByte
  if marker = 0 then return none
  else if marker = 1 then
    let id ← readId
    return some id
  else throw (.invalidSegmentCommitInfoIdMarker marker)

def readDocValuesUpdateFiles : CommitReader (SortedMap Int32 StringSet) := do
  let count ← readBeI32
  refuse (count < 0) SegmentInfosError.unexpectedEof
  let entries ← readMany (do
    let fieldNumber ← readBeI32
    let files ← readSetOfStrings
    return (fieldNumber, files)) count.toInt.toNat
  return entries.foldl (fun map entry => map.upsert entry.1 fun _ => entry.2) .empty

def readSegmentCommitInfo : CommitReader SegmentCommitInfo := do
  let name ← readString
  let id ← readId
  let codec ← readString
  let delGen ← readBeI64
  let delCount ← readBeI32
  let fieldInfosGen ← readBeI64
  let docValuesGen ← readBeI64
  let softDelCount ← readBeI32
  let sciId ← readSciId
  let fieldInfosFiles ← readSetOfStrings
  let docValuesUpdateFiles ← readDocValuesUpdateFiles
  return { metadata := { name, id, codec }, delGen, delCount, fieldInfosGen, docValuesGen, softDelCount,
           sciId, fieldInfosFiles, docValuesUpdateFiles }

structure CommitFields where
  id : Id
  luceneVersion : Int32 × Int32 × Int32
  indexCreatedVersionMajor : Int32
  version : Int64
  counter : Int64
  segments : List SegmentCommitInfo
  userData : SortedMap String String
deriving DecidableEq

def readFields (expectedSuffix : String) : CommitReader CommitFields := do
  let id ← readId
  let suffix ← readByteString
  refuse (suffix ≠ expectedSuffix) (SegmentInfosError.suffixMismatch expectedSuffix suffix)
  let major ← readVint
  let minor ← readVint
  let bugfix ← readVint
  let indexCreatedVersionMajor ← readVint
  let version ← readBeI64
  let counter ← readVlong
  let segmentCount ← readBeI32
  refuse (segmentCount < 0) (SegmentInfosError.invalidSegmentCount segmentCount)
  let segments ← readMany readSegmentCommitInfo segmentCount.toInt.toNat
  let userData ← readMapOfStrings
  return { id, luceneVersion := (major, minor, bugfix), indexCreatedVersionMajor, version,
           counter := counter.toInt64, segments, userData }

def usizeSub (a b : Nat) : Except CommitFailure Nat := if b ≤ a then .ok (a - b) else .error .overflow

/- The header is read from what is before the footer, the fields from the whole buffer. -/
def readCommit (fileName : String) (bytes : List UInt8) : Except CommitFailure SegmentInfos := do
  let generation ← (generationFromSegmentsFileName fileName).mapError .error
  let _ ← (checkFooter bytes).mapError fun e => CommitFailure.error (.codec e)
  refuse (bytes.length < footerLength) (CommitFailure.error .unexpectedEof)
  let bodyEnd := bytes.length - footerLength
  let (_, behind) ← ((checkHeader segmentsCodec segmentsVersion74 segmentsVersionCurrent)
    (bytes.take bodyEnd)).mapError fun e => CommitFailure.error (.codec e)
  let headerLength := bodyEnd - behind.length
  let (fields, left) ← (readFields (formatBase36 generation) (bytes.drop headerLength)).mapError .error
  let position := bytes.length - left.length
  if position ≠ bodyEnd then do
    let count ← usizeSub bodyEnd position
    throw (.error (.trailingBytes count))
  let infos ← (SegmentInfos.new fields.indexCreatedVersionMajor).mapError .error
  return { infos with
    generation, lastGeneration := generation, id := some fields.id,
    luceneVersion := some fields.luceneVersion, userData := fields.userData, segments := fields.segments,
    version := fields.version, counter := fields.counter }

end SegmentInfos

end Reading

end Surch.Index
