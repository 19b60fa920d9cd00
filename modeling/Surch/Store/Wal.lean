import Surch.Lib.Reader
import Surch.Index.Subfields

/-! The write-ahead log: records, their bytes, and the log file with its codec header and checksum
footer. -/
namespace Surch.Store
open Surch.Lib Surch.Index Surch.Postings

inductive CodecUtilError where
  | invalidCodecName (codec : String)
  | unexpectedEof
  | headerMismatch (actual expected : Int32)
  | codecMismatch (actual expected : String)
  | versionTooOld (actual min max : Int32)
  | versionTooNew (actual min max : Int32)
  | invalidUtf8
  | footerTooShort (length : Nat)
  | footerMismatch (actual expected : Int32)
  | unknownChecksumAlgorithm (algorithmId : Int32)
  | illegalChecksum (checksum : Nat)
  | checksumMismatch (expected actual : UInt32)
deriving DecidableEq

inductive WalError where
  | io (message : String)
  | corrupt (message : String)
  | fieldTooLarge (field : String) (length limit : Nat)
  | invalidIdentifier (field value : String)
  | codecUtil (error : CodecUtilError)
deriving DecidableEq

inductive WalOperation where
  | index (source : List UInt8)
  | delete
deriving DecidableEq

structure WalRecord where
  sequence : Nat
  timestampMillis : Nat
  index : String
  docId : String
  operation : WalOperation
deriving DecidableEq

section CodecUtil

def codecMagic : Int32 := 0x3fd76c17
def footerMagic : Int32 := ~~~codecMagic
def footerLength : Nat := 16

def beI32 (value : Int32) : List UInt8 := beBytes 4 value.toUInt32.toNat

def readBeI32 : Reader CodecUtilError UInt8 Int32 := do
  let bytes ← readArray .unexpectedEof 4
  return (UInt32.ofNat (beNat bytes)).toInt32

def crc32Rounds : Nat → UInt32 → UInt32
  | 0, crc => crc
  | rounds + 1, crc => crc32Rounds rounds ((crc >>> 1) ^^^ (0xedb88320 &&& (0 - (crc &&& 1))))

def crc32Zlib (input : List UInt8) : UInt32 :=
  ~~~(input.foldl (fun crc byte => crc32Rounds 8 (crc ^^^ byte.toUInt32)) 0xffffffff)

def writeVint : (fuel : Nat) → Nat → List UInt8
  | 0, value => [UInt8.ofNat value]
  | fuel + 1, value =>
    if value < 0x80 then [UInt8.ofNat value]
    else UInt8.ofNat (value % 0x80 + 0x80) :: writeVint fuel (value / 0x80)

def readVint : (shifts : List Nat) → UInt32 → Reader CodecUtilError UInt8 UInt32
  | [], value => return value
  | shift :: shifts, value => do
    let byte ← readArray .unexpectedEof 1
    let b := byte.headD 0
    let value := value ||| ((b &&& 0x7f).toUInt32 <<< UInt32.ofNat shift)
    if b &&& 0x80 = 0 then return value else readVint shifts value

def validateCodecName (codec : String) : Except CodecUtilError Unit :=
  refuse (¬ codec.toList.all (·.toNat < 128) ∨ 128 ≤ codec.utf8ByteSize) (.invalidCodecName codec)

def writeHeader (codec : String) (version : Int32) : Except CodecUtilError (List UInt8) := do
  validateCodecName codec
  return beI32 codecMagic ++ (writeVint 4 (utf8 codec).length ++ utf8 codec) ++ beI32 version

def readString : Reader CodecUtilError UInt8 String := do
  let length ← readVint [0, 7, 14, 21, 28] 0
  let value ← readArray .unexpectedEof length.toNat
  match fromUtf8 value with
  | some text => return text
  | none => throw .invalidUtf8

def checkHeader (codec : String) (minVersion maxVersion : Int32) :
    Reader CodecUtilError UInt8 Int32 := do
  let actualHeader ← readBeI32
  refuse (actualHeader ≠ codecMagic) (.headerMismatch actualHeader codecMagic)
  let actualCodec ← readString
  refuse (actualCodec ≠ codec) (.codecMismatch actualCodec codec)
  let actualVersion ← readBeI32
  refuse (actualVersion < minVersion) (.versionTooOld actualVersion minVersion maxVersion)
  refuse (actualVersion > maxVersion) (.versionTooNew actualVersion minVersion maxVersion)
  return actualVersion

/- `write_footer` appends to what has been written, and checksums it. -/
def writeFooter (output : List UInt8) : List UInt8 :=
  let output := output ++ beI32 footerMagic ++ beI32 0
  output ++ beBytes 8 (crc32Zlib output).toNat

def readFooter : Reader CodecUtilError UInt8 UInt32 := do
  let actualFooter ← readBeI32
  refuse (actualFooter ≠ footerMagic) (.footerMismatch actualFooter footerMagic)
  let algorithmId ← readBeI32
  refuse (algorithmId ≠ 0) (.unknownChecksumAlgorithm algorithmId)
  let bytes ← readArray .unexpectedEof 8
  refuse (2 ^ 32 ≤ beNat bytes) (.illegalChecksum (beNat bytes))
  return UInt32.ofNat (beNat bytes)

def checkFooter (input : List UInt8) : Except CodecUtilError UInt32 := do
  refuse (input.length < footerLength) (.footerTooShort input.length)
  let (expected, _) ← readFooter (input.drop (input.length - footerLength))
  let actual := crc32Zlib (input.take (input.length - 8))
  refuse (expected ≠ actual) (.checksumMismatch expected actual)
  return actual

end CodecUtil

section Records

def maxWalBinaryFieldBytes : Nat := 4 * 1024 * 1024

def writePrefixedBytes (field : String) (value : List UInt8) : Except WalError (List UInt8) :=
  if value.length > maxWalBinaryFieldBytes then
    .error (.fieldTooLarge field value.length maxWalBinaryFieldBytes)
  else .ok (beBytes 4 value.length ++ value)

def WalOperation.encode : WalOperation → Except WalError (List UInt8)
  | .index source => do
    let source ← writePrefixedBytes "source" source
    return 1 :: source
  | .delete => return [2]

def WalRecord.encode (record : WalRecord) : Except WalError (List UInt8) := do
  let index ← writePrefixedBytes "index" (utf8 record.index)
  let docId ← writePrefixedBytes "doc_id" (utf8 record.docId)
  let operation ← record.operation.encode
  return beBytes 8 record.sequence ++ beBytes 8 record.timestampMillis ++ index ++ docId ++ operation

def endOfInput : WalError := .corrupt "unexpected end of WAL input"

def readU8 : Reader WalError UInt8 UInt8 := do
  let bytes ← readArray endOfInput 1
  return bytes.headD 0

def readU64 : Reader WalError UInt8 Nat := do
  let bytes ← readArray endOfInput 8
  return beNat bytes

def readPrefixedBytes : Reader WalError UInt8 (List UInt8) := do
  let bytes ← readArray endOfInput 4
  let length := beNat bytes
  refuse (length > maxWalBinaryFieldBytes)
    (.fieldTooLarge "prefixed_data" length maxWalBinaryFieldBytes)
  readArray endOfInput length

def continuations (first : UInt8) : Option (List (UInt8 × UInt8)) :=
  if first < 0x80 then some []
  else if 0xc2 ≤ first ∧ first ≤ 0xdf then some [(0x80, 0xbf)]
  else if first = 0xe0 then some [(0xa0, 0xbf), (0x80, 0xbf)]
  else if first = 0xed then some [(0x80, 0x9f), (0x80, 0xbf)]
  else if 0xe1 ≤ first ∧ first ≤ 0xef then some [(0x80, 0xbf), (0x80, 0xbf)]
  else if first = 0xf0 then some [(0x90, 0xbf), (0x80, 0xbf), (0x80, 0xbf)]
  else if 0xf1 ≤ first ∧ first ≤ 0xf3 then some [(0x80, 0xbf), (0x80, 0xbf), (0x80, 0xbf)]
  else if first = 0xf4 then some [(0x80, 0x8f), (0x80, 0xbf), (0x80, 0xbf)]
  else none

/- `Utf8Error`, displayed, of bytes that are no UTF-8 behind `validUpTo` bytes that are. -/
def utf8Error (validUpTo : Nat) : List UInt8 → String
  | [] => ""
  | first :: rest =>
    match continuations first with
    | none => s!"invalid utf-8 sequence of 1 bytes from index {validUpTo}"
    | some ranges =>
      let fitting := ((rest.zip ranges).takeWhile fun (byte, low, high) =>
        low ≤ byte && byte ≤ high).length
      if fitting = ranges.length then utf8Error (validUpTo + 1 + fitting) (rest.drop fitting)
      else if fitting = rest.length then s!"incomplete utf-8 byte sequence from index {validUpTo}"
      else s!"invalid utf-8 sequence of {fitting + 1} bytes from index {validUpTo}"
termination_by bytes => bytes.length
decreasing_by
  rw [List.length_drop, List.length_cons]
  omega

def readPrefixedString : Reader WalError UInt8 String := do
  let value ← readPrefixedBytes
  match fromUtf8 value with
  | some text => return text
  | none => throw (.corrupt s!"invalid UTF-8 string in WAL: {utf8Error 0 value}")

def readOperation : Reader WalError UInt8 WalOperation := do
  let marker ← readU8
  if marker = 1 then
    let source ← readPrefixedBytes
    return .index source
  else if marker = 2 then return .delete
  else throw (.corrupt s!"unknown WAL op marker: {marker}")

def WalRecord.decode : Reader WalError UInt8 WalRecord := do
  let sequence ← readU64
  let timestampMillis ← readU64
  let index ← readPrefixedString
  let docId ← readPrefixedString
  let operation ← readOperation
  return { sequence, timestampMillis, index, docId, operation }

def validateIdentifier (value field : String) : Except WalError Unit :=
  refuse (isBlank value ∨ (utf8 value).any fun byte => byte == 0 || byte == 47 || byte == 92)
    (.invalidIdentifier field value)

end Records

section LogFile

def walCodec : String := "wal"
def walVersion : Int32 := 1

def encodeAll : List WalRecord → Except WalError (List UInt8)
  | [] => .ok []
  | record :: records => do
    let head ← record.encode
    let tail ← encodeAll records
    return head ++ tail

def walBytes (entries : List WalRecord) : Except WalError (List UInt8) := do
  let header ← (writeHeader walCodec walVersion).mapError .codecUtil
  let body ← encodeAll entries
  return writeFooter (header ++ body)

/- The loop of `read_file`: records up to the footer, in strictly increasing sequence. Every record
takes bytes, so a file of `fuel` bytes never runs out. -/
def readEntries : (fuel : Nat) → (lastSequence : Nat) → Reader WalError UInt8 (List WalRecord)
  | 0, _ => return []
  | fuel + 1, lastSequence => do
    let rest ← get
    if rest.length ≤ footerLength then return []
    let record ← WalRecord.decode
    refuse (record.sequence = 0) (.corrupt "WAL sequence cannot be zero")
    refuse (record.sequence ≤ lastSequence)
      (.corrupt "WAL sequence must be strictly increasing")
    validateIdentifier record.index "index"
    validateIdentifier record.docId "document id"
    let entries ← readEntries fuel record.sequence
    return record :: entries

def readFile (bytes : List UInt8) : Except WalError (List WalRecord) := do
  if bytes.isEmpty then return []
  let _ ← (checkFooter bytes).mapError .codecUtil
  let (_, body) ← ((checkHeader walCodec walVersion walVersion).run bytes).mapError .codecUtil
  let (entries, rest) ← (readEntries bytes.length 0).run body
  refuse (rest.length ≠ footerLength) (.corrupt "WAL has trailing bytes before footer")
  return entries

end LogFile

end Surch.Store
