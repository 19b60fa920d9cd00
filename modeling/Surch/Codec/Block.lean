import Surch.Codec.Bits
import Surch.Lib.Chunks

/-! One block of at most 128 postings: `encode_block_into` with its cost planner, and
`decode_block_at` with every check it makes on the bytes. -/
namespace Surch.Codec
open Surch.Lib

def forBlockSize : Nat := 128

def maxPackedWidth : Nat := 32

/-- `bit_width`: the significant bits of a value, none for zero. -/
def bitWidth (value : Nat) : Nat := if value = 0 then 0 else value.log2 + 1

def varintLenForBits (bits : Nat) : Nat :=
  if bits ≤ 7 then 1
  else if bits ≤ 14 then 2
  else if bits ≤ 21 then 3
  else if bits ≤ 28 then 4
  else 5

inductive DocPlan where
  | varint
  | packed (width : Nat)
  | patched (width exceptions : Nat)
deriving DecidableEq, Repr

inductive FreqMode where
  | allOnes
  | constant
  | packed
  | varint
deriving DecidableEq, Repr

def DocPlan.docMode : DocPlan → UInt8
  | .varint => 0
  | .packed _ => 1
  | .patched _ _ => 2

def FreqMode.code : FreqMode → UInt8
  | .allOnes => 0
  | .constant => 1
  | .packed => 2
  | .varint => 3

/-- The exceptions of a candidate width and the bytes their list would take. -/
def exceptionCost (histogram : List Nat) (width widthMax : Nat) : Nat × Nat :=
  (List.range' (width + 1) (widthMax - width)).foldl
    (fun (exceptions, exceptionBytes) bits =>
      let count := histogram.getD bits 0
      (exceptions + count, exceptionBytes + count * (1 + varintLenForBits bits)))
    (0, 0)

/-- `plan_doc_channel`: the cheapest coding of a block's deltas. Only a strict
improvement is kept, starting from varints, so the choice is canonical. -/
def planDocChannel (histogram : List Nat) (deltaCount varintCost : Nat) : DocPlan :=
  if deltaCount = 0 then .varint
  else
    match (List.range' 1 maxPackedWidth).reverse.find? fun w => histogram.getD w 0 > 0 with
    | none => .varint
    | some widthMax =>
      let (bestPlan, bestCost) :=
        (List.range' 1 (widthMax - 1)).foldl
          (fun (bestPlan, bestCost) width =>
            let (exceptions, exceptionBytes) := exceptionCost histogram width widthMax
            let cost := 2 + packedLen deltaCount width + exceptionBytes
            if cost < bestCost then (DocPlan.patched width exceptions, cost)
            else (bestPlan, bestCost))
          (DocPlan.varint, varintCost)
      if 1 + packedLen deltaCount widthMax < bestCost then .packed widthMax else bestPlan

/-- The intra-block deltas, which `encode_block_into` collects into its scratch buffer. -/
def blockDeltas (docChunk : List Nat) : List Nat :=
  (windows2 docChunk).map fun pair => pair.2 - pair.1

def deltaHistogram (deltas : List Nat) : List Nat :=
  deltas.foldl (fun histogram delta => histogram.modify (bitWidth delta) (· + 1))
    (List.replicate 33 0)

def docPlan (deltas : List Nat) : DocPlan :=
  planDocChannel (deltaHistogram deltas) deltas.length
    (deltas.map fun delta => varintLenForBits (bitWidth delta)).sum

def freqWidth (freqChunk : List Nat) : Nat := max ((freqChunk.map bitWidth).foldl max 0) 1

def freqMode (freqChunk : List Nat) : FreqMode :=
  if freqChunk.all (· == 1) then .allOnes
  else if (windows2 freqChunk).all fun pair => pair.1 == pair.2 then .constant
  else if (freqChunk.map fun freq => varintLenForBits (bitWidth freq)).sum <
      1 + packedLen freqChunk.length (freqWidth freqChunk) then .varint
  else .packed

/-- The deltas at or above the threshold, with their positions from `index` on. -/
def exceptionsFrom (threshold : Nat) : (index : Nat) → List Nat → List (Nat × Nat)
  | _, [] => []
  | index, delta :: deltas =>
    if delta ≥ threshold then (index, delta) :: exceptionsFrom threshold (index + 1) deltas
    else exceptionsFrom threshold (index + 1) deltas

def writeException (entry : Nat × Nat) : List UInt8 :=
  UInt8.ofNat entry.1 :: writeVarintU32 entry.2

def writeDocChannel (plan : DocPlan) (deltas : List Nat) : List UInt8 :=
  match plan with
  | .varint => deltas.flatMap writeVarintU32
  | .packed width => UInt8.ofNat width :: packBits deltas width
  | .patched width exceptions =>
    let threshold := 2 ^ width
    UInt8.ofNat width :: UInt8.ofNat exceptions ::
      (packBits (deltas.map fun delta => if delta ≥ threshold then 0 else delta) width ++
        (exceptionsFrom threshold 0 deltas).flatMap writeException)

def writeFreqChannel (mode : FreqMode) (freqChunk : List Nat) : List UInt8 :=
  match mode with
  | .allOnes => []
  | .constant => writeVarintU32 (freqChunk.headD 0)
  | .packed =>
    UInt8.ofNat (freqWidth freqChunk) :: packBits freqChunk (freqWidth freqChunk)
  | .varint => freqChunk.flatMap writeVarintU32

/-- `BlockedEncodeStats`: diagnostic counters, in saturating 64-bit arithmetic. -/
structure BlockedEncodeStats where
  blocks : Nat := 0
  docIdBytes : Nat := 0
  freqBytes : Nat := 0
  freqOmittedBlocks : Nat := 0
deriving DecidableEq, Repr

def saturatingAddU64 (a b : Nat) : Nat := min (a + b) (2 ^ 64 - 1)

def BlockedEncodeStats.merge (stats other : BlockedEncodeStats) : BlockedEncodeStats where
  blocks := saturatingAddU64 stats.blocks other.blocks
  docIdBytes := saturatingAddU64 stats.docIdBytes other.docIdBytes
  freqBytes := saturatingAddU64 stats.freqBytes other.freqBytes
  freqOmittedBlocks := saturatingAddU64 stats.freqOmittedBlocks other.freqOmittedBlocks

/-- Header, absolute first identifier and doc channel of a block. -/
def docIdPart (docChunk freqChunk : List Nat) : List UInt8 :=
  let deltas := blockDeltas docChunk
  let plan := docPlan deltas
  (plan.docMode ||| (freqMode freqChunk).code <<< 2) ::
    (writeVarintU32 (docChunk.headD 0) ++ writeDocChannel plan deltas)

/-- `encode_block_into`: the bytes one block appends, and what it counted. -/
def encodeBlockInto (docChunk freqChunk : List Nat) : List UInt8 × BlockedEncodeStats :=
  let docPart := docIdPart docChunk freqChunk
  let freqPart := writeFreqChannel (freqMode freqChunk) freqChunk
  (docPart ++ freqPart,
    { blocks := 1
      docIdBytes := docPart.length
      freqBytes := freqPart.length
      freqOmittedBlocks := if freqMode freqChunk = .allOnes then 1 else 0 })

def readByte : BlockReader UInt8
  | [] => .error .unexpectedEof
  | byte :: rest => .ok (byte, rest)

/-- `read_width`: zero and anything above 32 bits is refused. -/
def readWidth : BlockReader Nat := do
  let width ← readByte
  if width.toNat = 0 ∨ width.toNat > maxPackedWidth then throw .malformedBlock
  else return width.toNat

def readVarints : (count : Nat) → BlockReader (List Nat)
  | 0 => return []
  | count + 1 => do
    let value ← readVarintU32
    let values ← readVarints count
    return value :: values

/-- The exception loop of the patched mode: each one patches a zero slot, in order. -/
def readExceptions (threshold deltaCount : Nat) :
    (exceptions : Nat) → (previousIndex : Option Nat) → List Nat → BlockReader (List Nat)
  | 0, _, deltas => return deltas
  | exceptions + 1, previousIndex, deltas => do
    let index ← readByte
    if index.toNat ≥ deltaCount ∨ previousIndex.any fun previous => index.toNat ≤ previous then
      throw .malformedBlock
    else
      let value ← readVarintU32
      if value < threshold ∨ deltas.getD index.toNat 0 ≠ 0 then throw .malformedBlock
      else
        readExceptions threshold deltaCount exceptions (some index.toNat)
          (deltas.set index.toNat value)

def readDocChannel (docMode : UInt8) (deltaCount : Nat) : BlockReader (List Nat) :=
  if docMode = 0 then readVarints deltaCount
  else if docMode = 1 then do
    let width ← readWidth
    unpackBits deltaCount width
  else if docMode = 2 then do
    let width ← readWidth
    if width ≥ maxPackedWidth then throw .malformedBlock
    else
      let exceptions ← readByte
      if exceptions.toNat = 0 ∨ exceptions.toNat > deltaCount then throw .malformedBlock
      else
        let deltas ← unpackBits deltaCount width
        readExceptions (2 ^ width) deltaCount exceptions.toNat none deltas
  else throw .malformedBlock

/-- The identifiers after `previous`: every delta is positive and none overflows `u32`. -/
def accumulateDocIds : (previous : Nat) → List Nat → BlockReader (List Nat)
  | _, [] => return []
  | previous, delta :: deltas =>
    if delta = 0 then throw .notMonotonic
    else if previous + delta ≥ 2 ^ 32 then throw .notMonotonic
    else do
      let docIds ← accumulateDocIds (previous + delta) deltas
      return (previous + delta) :: docIds

def readFreqChannel (freqMode : UInt8) (count : Nat) : BlockReader (List Nat) :=
  if freqMode = 0 then return List.replicate count 1
  else if freqMode = 1 then do
    let constant ← readVarintU32
    if constant = 1 then throw .malformedBlock
    else return List.replicate count constant
  else if freqMode = 2 then do
    let width ← readWidth
    unpackBits count width
  else if freqMode = 3 then readVarints count
  else throw .malformedBlock

/-- `decode_block_at`: one block of `count` postings. -/
def decodeBlockAt (count : Nat) : BlockReader (List Nat × List Nat) :=
  if count = 0 then return ([], [])
  else do
    let header ← readByte
    if header &&& 0xf0 ≠ 0 then throw .malformedBlock
    else
      let first ← readVarintU32
      let deltas ← readDocChannel (header &&& 0x03) (count - 1)
      let docIds ← accumulateDocIds first deltas
      let freqs ← readFreqChannel ((header >>> 2) &&& 0x03) count
      return (first :: docIds, freqs)

/-- `decode_block`: trailing bytes are ignored. -/
def decodeBlock (bytes : List UInt8) (count : Nat) :
    Except PostingsBlockError (List Nat × List Nat) :=
  (decodeBlockAt count bytes).map Prod.fst

end Surch.Codec
