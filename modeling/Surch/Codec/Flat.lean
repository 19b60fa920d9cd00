import Surch.Codec.Blocked
import Surch.Lib.Tiling

/-! The flat format `encode_postings_doc_id_freq`: a count, the doc-id deltas and then the
frequencies, all varints. It is read back whole, inspected block by block, and walked one
identifier at a time; each reader has a loop of its own over the same bytes. -/
namespace Surch.Codec
open Surch.Lib

structure PostingsBlockMeta where
  blockIndex : Nat
  postingCount : Nat
  minDocId : Nat
  maxDocId : Nat
  maxTermFreq : Nat
  docIdsByteStart : Nat
  docIdsByteEnd : Nat
  freqsByteStart : Nat
  freqsByteEnd : Nat
deriving DecidableEq, Repr

def docIdDeltas : (previous : Nat) → List Nat → List Nat
  | _, [] => []
  | previous, value :: docIds => (value - previous) :: docIdDeltas value docIds

/-- `encode_postings_doc_id_freq`. -/
def encodePostingsDocIdFreq (docIds freqs : List Nat) : Except PostingsBlockError (List UInt8) :=
  if docIds.length ≠ freqs.length then .error .notMonotonic
  else do
    validateStrictlyIncreasing docIds
    return writeVarintU32 (docIds.length % 2 ^ 32) ++
      ((docIdDeltas 0 docIds).flatMap writeVarintU32 ++ freqs.flatMap writeVarintU32)

/- The doc-id loop of `decode_postings_doc_id_freq`, at its index `i`. -/
def decodeDocIds : (count i previous : Nat) → BlockReader (List Nat)
  | 0, _, _ => return []
  | count + 1, i, previous => do
    let delta ← readVarintU32
    if i > 0 ∧ delta = 0 then throw .notMonotonic
    else if previous + delta ≥ 2 ^ 32 then throw .notMonotonic
    else
      let docIds ← decodeDocIds count (i + 1) (previous + delta)
      return (previous + delta) :: docIds

/-- `decode_postings_doc_id_freq`: trailing bytes are ignored. -/
def decodePostingsDocIdFreq (bytes : List UInt8) :
    Except PostingsBlockError (List Nat × List Nat) :=
  let decode : BlockReader (List Nat × List Nat) := do
    let length ← readVarintU32
    let docIds ← decodeDocIds length 0 0
    let freqs ← readVarints length
    return (docIds, freqs)
  (decode bytes).map Prod.fst

def bytePosition (total : Nat) : BlockReader Nat := fun rest => .ok (total - rest.length, rest)

structure SlotScan where
  previous : Nat
  started : Bool
  minDocId : Nat
  maxDocId : Nat
deriving DecidableEq, Repr

def scanSlots : (count slot : Nat) → SlotScan → BlockReader SlotScan
  | 0, _, scan => return scan
  | count + 1, slot, scan => do
    let delta ← readVarintU32
    if scan.started = true ∧ delta = 0 then throw .notMonotonic
    else if scan.previous + delta ≥ 2 ^ 32 then throw .notMonotonic
    else
      let value := scan.previous + delta
      scanSlots count (slot + 1)
        { previous := value
          started := true
          minDocId := if slot = 0 then value else scan.minDocId
          maxDocId := value }

def scanBlocks (total remaining blockIndex previous : Nat) (started : Bool) :
    BlockReader (List PostingsBlockMeta) :=
  if remaining = 0 then return []
  else do
    let postingCount := min remaining forBlockSize
    let docIdsByteStart ← bytePosition total
    let scan ← scanSlots postingCount 0 { previous, started, minDocId := 0, maxDocId := 0 }
    let docIdsByteEnd ← bytePosition total
    let blocks ← scanBlocks total (remaining - postingCount) (blockIndex + 1) scan.previous
      scan.started
    let block : PostingsBlockMeta :=
      { blockIndex, postingCount
        minDocId := scan.minDocId
        maxDocId := scan.maxDocId
        maxTermFreq := 0
        docIdsByteStart, docIdsByteEnd
        freqsByteStart := 0
        freqsByteEnd := 0 }
    return block :: blocks
termination_by remaining
decreasing_by unfold forBlockSize; omega

def scanMaxFreq : (count maxTermFreq : Nat) → BlockReader Nat
  | 0, maxTermFreq => return maxTermFreq
  | count + 1, maxTermFreq => do
    let freq ← readVarintU32
    scanMaxFreq count (max maxTermFreq freq)

def scanFreqs (total : Nat) : List PostingsBlockMeta → BlockReader (List PostingsBlockMeta)
  | [] => return []
  | block :: blocks => do
    let freqsByteStart ← bytePosition total
    let maxTermFreq ← scanMaxFreq block.postingCount 0
    let freqsByteEnd ← bytePosition total
    let blocks ← scanFreqs total blocks
    return { block with freqsByteStart, maxTermFreq, freqsByteEnd } :: blocks

/-- `inspect_postings_blocks`. -/
def inspectPostingsBlocks (bytes : List UInt8) :
    Except PostingsBlockError (List PostingsBlockMeta) :=
  let inspect : BlockReader (List PostingsBlockMeta) := do
    let length ← readVarintU32
    if length = 0 then return []
    else
      let blocks ← scanBlocks bytes.length length 0 0 false
      scanFreqs bytes.length blocks
  (inspect bytes).map Prod.fst

structure DocIdDeltaCursor where
  bytes : List UInt8
  remaining : Nat
  previous : Nat
  started : Bool
deriving DecidableEq, Repr

def DocIdDeltaCursor.new (encoded : List UInt8) : Except PostingsBlockError DocIdDeltaCursor := do
  let (remaining, bytes) ← readVarintU32 encoded
  return { bytes, remaining, previous := 0, started := false }

/- The cursor is not used any more after an error. -/
def DocIdDeltaCursor.next (cursor : DocIdDeltaCursor) :
    Except PostingsBlockError (Option Nat × DocIdDeltaCursor) :=
  if cursor.remaining = 0 then .ok (none, cursor)
  else do
    let (delta, bytes) ← readVarintU32 cursor.bytes
    if cursor.started = true ∧ delta = 0 then .error .notMonotonic
    else if cursor.previous + delta ≥ 2 ^ 32 then .error .notMonotonic
    else
      let value := cursor.previous + delta
      return (some value,
        { bytes, remaining := cursor.remaining - 1, previous := value, started := true })

def DocIdDeltaCursor.nexts : (calls : Nat) → DocIdDeltaCursor →
    Except PostingsBlockError (List (Option Nat) × DocIdDeltaCursor)
  | 0, cursor => .ok ([], cursor)
  | calls + 1, cursor => do
    let (docId, cursor) ← cursor.next
    let (docIds, cursor) ← nexts calls cursor
    return (docId :: docIds, cursor)

end Surch.Codec
