import Surch.Api.SourceStore
import Surch.Index.Subfields
import Mathlib.Data.List.Lex
import Surch.Lib.Csr
import Mathlib.Data.Finset.Insert

/-! The id maps of `InMemoryIndex`: a dense snapshot of the documents at the last densify, overlays
for what was written since, and tombstones for what was deleted since. -/
namespace Surch.Api
open Surch.Lib Surch.Index

section Slots

def packDocumentSlot (offset length codec : Nat) : Option Nat :=
  if length ≤ packedLengthMax ∧ offset ≤ packedOffsetMax then
    some ((codec &&& packedCodecMax) <<< (packedOffsetBits + packedLengthBits) |||
      length <<< packedOffsetBits ||| offset)
  else none

def unpackDocumentSlot (packed : Nat) : Option (Nat × Nat × Nat) :=
  let length := (packed >>> packedOffsetBits) &&& packedLengthMax
  if length = 0 then none
  else
    some (packed &&& packedOffsetMax, length,
      (packed >>> (packedOffsetBits + packedLengthBits)) % 2 ^ 8 &&& packedCodecMax)

/- A compressed blob never reaches the dense maps. -/
def packSourceBlob : SourceBlob → Option Nat
  | .onDisk offset length codec => packDocumentSlot offset length codec
  | .compressed _ => none

def packSlot : Option SourceBlob → Option Nat
  | some blob => packSourceBlob blob
  | none => some 0

end Slots

/- `fst::Map`: byte strings to numbers, in byte order. -/
abbrev FstMap := SortedMap (List UInt8) Nat

/- `MapBuilder`: a key that is not above the one before it is refused, and the refusal panics. -/
def fstBuild (entries : List (List UInt8 × Nat)) : Option FstMap :=
  if ascending : (entries.map Prod.fst).Pairwise (· < ·) then some ⟨entries, ascending⟩ else none

/- `sort_unstable_by` on the bytes of the identifiers, which are distinct. -/
def sortByUid (entries : List (String × Nat)) : List (List UInt8 × Nat) :=
  (entries.map fun entry => (utf8 entry.1, entry.2)).insertionSort fun a b => a.1 ≤ b.1

def buildForward (liveUids : List (Nat × String)) : Option (Option FstMap) :=
  if liveUids.isEmpty then some none
  else (fstBuild (sortByUid (liveUids.map Prod.swap))).map some

/- The merge join of `merge_forward_fst`: new keys go before the first old key above them. -/
def mergeForwardEntries : List (List UInt8 × Nat) → List (List UInt8 × Nat) →
    List (List UInt8 × Nat)
  | [], entries => entries
  | old :: rest, entries =>
    entries.takeWhile (fun entry => entry.1 < old.1) ++
      old :: mergeForwardEntries rest (entries.dropWhile fun entry => entry.1 < old.1)

def mergeForwardFst (old : Option FstMap) (entries : List (List UInt8 × Nat)) :
    Option (Option FstMap) :=
  if entries.isEmpty then some old
  else
    (fstBuild (mergeForwardEntries ((old.map SortedMap.entries).getD []) entries)).map some

/- `reverseUids` and `reverseOffsets` give each document its identifier; a document without one has
an empty span. -/
structure DenseIdMaps where
  forward : Option FstMap
  reverseUids : List UInt8
  reverseOffsets : List Nat
  documents : List Nat

namespace DenseIdMaps

def default : DenseIdMaps := ⟨none, [], [], []⟩

def docCount (dense : DenseIdMaps) : Nat := (dense.reverseOffsets.length - 1) % 2 ^ 32

def uid (dense : DenseIdMaps) (docId : Nat) : Option String := do
  let start ← dense.reverseOffsets[docId]?
  let ending ← dense.reverseOffsets[docId + 1]?
  if start = ending then none
  else fromUtf8 ((dense.reverseUids.drop start).take (ending - start))

def blob (dense : DenseIdMaps) (docId : Nat) : Option SourceBlob := do
  let packed ← dense.documents[docId]?
  let (offset, length, codec) ← unpackDocumentSlot packed
  return .onDisk offset length codec

def forwardGet (dense : DenseIdMaps) (uid : String) : Option Nat :=
  (dense.forward.bind fun forward => forward.get? (utf8 uid)).map (· % 2 ^ 32)

end DenseIdMaps

structure IdMaps where
  dense : DenseIdMaps
  forwardDirty : SortedMap String Nat
  reverseDirty : SortedMap Nat String
  documentsDirty : SortedMap Nat SourceBlob
  deletedSinceDense : Finset Nat
  liveCount : Nat
  sourceStore : SourceStore
  nextDocId : Nat

namespace IdMaps

def new (epoch : Nat) : IdMaps where
  dense := .default
  forwardDirty := .empty
  reverseDirty := .empty
  documentsDirty := .empty
  deletedSinceDense := ∅
  liveCount := 0
  sourceStore := .default epoch
  nextDocId := 0

variable (maps : IdMaps)

def resolveUid (id : String) : Option Nat :=
  match maps.forwardDirty.get? id with
  | some docId => some docId
  | none => do
    let docId ← maps.dense.forwardGet id
    if docId ∈ maps.deletedSinceDense then none else some docId

def uidForDocId (docId : Nat) : Option String :=
  if docId ∈ maps.deletedSinceDense then none
  else (maps.reverseDirty.get? docId).or (maps.dense.uid docId)

def blobForDocId (docId : Nat) : Option SourceBlob :=
  if docId ∈ maps.deletedSinceDense then none
  else (maps.documentsDirty.get? docId).or (maps.dense.blob docId)

def hasDocument (id : String) : Bool := (maps.resolveUid id).isSome

def liveDocIds : List Nat :=
  (List.range maps.nextDocId).filter fun docId => docId ∉ maps.deletedSinceDense

/- The document is stored, then its slot written: a known identifier keeps its number, another one
takes the next. -/
def upsertDocumentDeferred (zstd : Zstd) (mode : SourceWriteMode) (id : String)
    (serialized : List UInt8) : Option IdMaps := do
  let (blob, sourceStore) ← storeSourceBytes zstd maps.sourceStore serialized mode
  let maps := { maps with sourceStore }
  match maps.resolveUid id with
  | some docId => return { maps with documentsDirty := maps.documentsDirty.upsert docId fun _ => blob }
  | none =>
    let docId := maps.nextDocId
    return { maps with
      nextDocId := (docId + 1) % 2 ^ 32
      reverseDirty := maps.reverseDirty.upsert docId fun _ => id
      forwardDirty := maps.forwardDirty.upsert id fun _ => docId
      documentsDirty := maps.documentsDirty.upsert docId fun _ => blob
      liveCount := maps.liveCount + 1 }

def deleteDocumentDeferred (id : String) : Bool × IdMaps :=
  match maps.resolveUid id with
  | none => (false, maps)
  | some docId =>
    (true,
      { maps with
        forwardDirty := maps.forwardDirty.erase id
        reverseDirty := maps.reverseDirty.erase docId
        documentsDirty := maps.documentsDirty.erase docId
        deletedSinceDense :=
          if docId < maps.dense.docCount then insert docId maps.deletedSinceDense
          else maps.deletedSinceDense
        liveCount := maps.liveCount - 1 })

def snapshot (dense : DenseIdMaps) : IdMaps :=
  { maps with
    dense
    forwardDirty := .empty
    reverseDirty := .empty
    documentsDirty := .empty
    deletedSinceDense := ∅ }

/- What the full scan finds for a document: both its source and its identifier, or nothing. -/
def liveSlot (docId : Nat) : Option (SourceBlob × String) :=
  if docId ∈ maps.deletedSinceDense then none
  else do
    let blob ← (maps.documentsDirty.get? docId).or (maps.dense.blob docId)
    let uid ← (maps.reverseDirty.get? docId).or (maps.dense.uid docId)
    return (blob, uid)

def packReverse : List Nat → List (Nat × String) → List UInt8 × List Nat → List UInt8 × List Nat
  | [], _, packed => packed
  | docId :: rest, live, (uids, offsets) =>
    match live with
    | (next, uid) :: later =>
      if next = docId then
        packReverse rest later (uids ++ utf8 uid, offsets ++ [(uids ++ utf8 uid).length % 2 ^ 32])
      else packReverse rest live (uids, offsets ++ [uids.length % 2 ^ 32])
    | [] => packReverse rest [] (uids, offsets ++ [uids.length % 2 ^ 32])

def densifyFull : Option IdMaps := do
  let docIds := List.range maps.nextDocId
  let documents ← docIds.mapM fun docId => packSlot ((maps.liveSlot docId).map Prod.fst)
  let liveUids := docIds.filterMap fun docId => (maps.liveSlot docId).map fun slot => (docId, slot.2)
  let (reverseUids, reverseOffsets) := packReverse docIds liveUids ([], [0])
  let forward ← buildForward liveUids
  return maps.snapshot { forward, reverseUids, reverseOffsets, documents }

def appendReverse (packed : List UInt8 × List Nat) (docId : Nat) : List UInt8 × List Nat :=
  let uids := packed.1 ++ ((maps.reverseDirty.get? docId).map utf8).getD []
  (uids, packed.2 ++ [uids.length % 2 ^ 32])

def densifyAppendOnly (oldBoundary : Nat) : Option IdMaps := do
  let docIds := List.range' oldBoundary (maps.nextDocId - oldBoundary)
  let documents ← docIds.mapM fun docId => packSlot (maps.documentsDirty.get? docId)
  let offsets := if maps.dense.reverseOffsets.isEmpty then [0] else maps.dense.reverseOffsets
  let (reverseUids, reverseOffsets) :=
    docIds.foldl maps.appendReverse (maps.dense.reverseUids, offsets)
  let entries := docIds.filterMap fun docId =>
    (maps.reverseDirty.get? docId).map fun uid => (uid, docId)
  let forward ← mergeForwardFst maps.dense.forward (sortByUid entries)
  return maps.snapshot
    { forward, reverseUids, reverseOffsets, documents := maps.dense.documents ++ documents }

/- The block under construction is sealed first; without overlays there is nothing to fold. -/
def densify (zstd : Zstd) : Option IdMaps := do
  let sourceStore ← maps.sourceStore.flushPendingBlock zstd
  let maps := { maps with sourceStore }
  if maps.forwardDirty.entries.isEmpty ∧ maps.deletedSinceDense = ∅ ∧
      maps.documentsDirty.entries.isEmpty then
    return maps
  else
    let oldBoundary := maps.dense.docCount
    if maps.deletedSinceDense ≠ ∅ ∨ maps.documentsDirty.keys.any (· < oldBoundary) then
      maps.densifyFull
    else maps.densifyAppendOnly oldBoundary

def maybeDensifyByBudget (zstd : Zstd) (budget : Option Nat) : Option IdMaps :=
  match budget with
  | none => some maps
  | some budget =>
    if maps.nextDocId - maps.dense.docCount < budget then some maps else maps.densify zstd

end IdMaps

end Surch.Api
