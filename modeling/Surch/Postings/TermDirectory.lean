import Surch.Postings.Channels
import Surch.Postings.Integrity

/-! The per-term directory of a field: packed term entries and block records, and the decision
to spill them into the segment or to keep the resident tables. -/
namespace Surch.Postings
open Surch.Lib Surch.Codec

structure TermEntry where
  postingsOffset : Nat
  postingsLen : Nat
  postingsCount : Nat
  blockDirOffset : Nat
  blockDirCount : Nat
deriving DecidableEq, Repr

def maxPostingsPerPayloadByte : Nat := 8

def TermEntry.validate (entry : TermEntry) : Except PostingsReadError Unit :=
  if entry.postingsLen = 0 then
    if entry.postingsOffset = 0 then .error .missingCoverage else .error .corrupt
  else if entry.postingsCount = 0 ∨
      (entry.postingsCount + maxPostingsPerPayloadByte - 1) / maxPostingsPerPayloadByte >
        entry.postingsLen then
    .error .corrupt
  else .ok ()

def termEntryEncodedLen : Nat := 28

def encodeTermEntry (entry : TermEntry) : List UInt8 :=
  leBytes 8 entry.postingsOffset ++ leBytes 4 entry.postingsLen ++ leBytes 4 entry.postingsCount ++
    leBytes 8 entry.blockDirOffset ++ leBytes 4 entry.blockDirCount

def decodeTermEntry (bytes : List UInt8) : Option TermEntry :=
  if bytes.length < termEntryEncodedLen then none
  else
    some
      { postingsOffset := leNat (bytes.take 8)
        postingsLen := leNat ((bytes.drop 8).take 4)
        postingsCount := leNat ((bytes.drop 12).take 4)
        blockDirOffset := leNat ((bytes.drop 16).take 8)
        blockDirCount := leNat ((bytes.drop 24).take 4) }

def blockDirEntryEncodedLen : Nat := 10

def encodeBlockDirEntry (entry : BlockDirEntry) : List UInt8 :=
  leBytes 4 entry.byteOffsetInTermPayload ++ leBytes 2 entry.count ++ leBytes 4 entry.maxDocId

def decodeBlockDirEntries : List UInt8 → (count : Nat) → Option (List BlockDirEntry)
  | _, 0 => some []
  | bytes, count + 1 =>
    if bytes.length < blockDirEntryEncodedLen then none
    else do
      let entries ← decodeBlockDirEntries (bytes.drop blockDirEntryEncodedLen) count
      return { byteOffsetInTermPayload := leNat (bytes.take 4)
               count := leNat ((bytes.drop 4).take 2)
               maxDocId := leNat ((bytes.drop 6).take 4) } :: entries

/- The channels handed over once every descriptor addresses the segment. -/
structure TermDirectoryChannels where
  segmentDescriptors : List (Nat × Nat)
  offsets : List Nat
  blockOffsets : List Nat
  blockDirectory : List BlockDirEntry
  blockDirOffsets : List Nat

structure TermDirectoryTables where
  segmentDescriptors : List (Nat × Nat)
  offsets : List Nat
  blockOffsets : List Nat
  blockDirectory : List BlockDirEntry
  blockDirOffsets : List Nat
  termEntriesDirectory : Option (Nat × Nat)
  p2Integrity : Option P2FieldIntegrity

namespace TermDirectoryChannels

def intoResident (channels : TermDirectoryChannels) : TermDirectoryTables where
  segmentDescriptors := channels.segmentDescriptors
  offsets := channels.offsets
  blockOffsets := channels.blockOffsets
  blockDirectory := channels.blockDirectory
  blockDirOffsets := channels.blockDirOffsets
  termEntriesDirectory := none
  p2Integrity := none

/- The record of one term, with final offsets into the segment; every step is checked. -/
def termEntry (channels : TermDirectoryChannels) (blockDirBase idx : Nat) : Option TermEntry :=
  let descriptor := channels.segmentDescriptors.getD idx (0, 0)
  let start := channels.offsets.getD idx 0
  let ending := channels.offsets.getD (idx + 1) 0
  let dirStart := channels.blockDirOffsets.getD idx 0
  let dirEnd := channels.blockDirOffsets.getD (idx + 1) 0
  if ending < start then none
  else if dirEnd < dirStart then none
  else if blockDirBase + dirStart * blockDirEntryEncodedLen ≥ 2 ^ 64 then none
  else
    some
      { postingsOffset := descriptor.1
        postingsLen := descriptor.2
        postingsCount := ending - start
        blockDirOffset := blockDirBase + dirStart * blockDirEntryEncodedLen
        blockDirCount := dirEnd - dirStart }

end TermDirectoryChannels

variable {Digest : Type}

structure BuildState (Digest : Type) where
  postingsSegment : Option PostingsSegment
  p2Integrity : P2IntegrityBuilder Digest
  postingsSkippedTerms : Nat

/- A fallback on disk is counted, and leaves every channel where it was. -/
def keepTermDirectoryResident (channels : TermDirectoryChannels) (diskEnabled : Bool)
    (state : BuildState Digest) : BuildState Digest × TermDirectoryTables :=
  if diskEnabled ∧ channels.segmentDescriptors ≠ [] then
    ({ state with p2Integrity := state.p2Integrity.recordFallback }, channels.intoResident)
  else (state, channels.intoResident)

variable (hash : List UInt8 → Digest)

/- `persist_or_keep_term_directory`. A failed append of metadata keeps the segment alive: the
payload written before it is the only copy of the postings. -/
def persistOrKeepTermDirectory (channels : TermDirectoryChannels) (diskEnabled : Bool)
    (fieldOrdinal : Option Nat) (state : BuildState Digest) :
    BuildState Digest × TermDirectoryTables :=
  let keep := keepTermDirectoryResident channels diskEnabled
  let termCount := channels.segmentDescriptors.length
  if diskEnabled = false ∨ channels.segmentDescriptors = [] then keep state
  else
    let state := { state with
      p2Integrity := state.p2Integrity.recordLayout termCount channels.blockDirectory.length }
    if channels.offsets.length ≠ termCount + 1 ∨ channels.blockDirOffsets.length ≠ termCount + 1
    then keep state
    else if termCount ≥ 2 ^ 32 then keep state
    else
      match state.postingsSegment with
      | none => keep state
      | some segment =>
        let encodedDirectory := channels.blockDirectory.flatMap encodeBlockDirEntry
        match segment.append encodedDirectory with
        | (none, segment) => keep { state with postingsSegment := some segment }
        | (some blockDirBase, segment) =>
          let state := { state with postingsSegment := some segment }
          match fieldOrdinal with
          | none => keep state
          | some fieldOrdinal =>
            let entriesLen := termCount * termEntryEncodedLen
            if entriesLen ≥ 2 ^ 64 then keep state
            else if !state.p2Integrity.canPublish encodedDirectory.length entriesLen then keep state
            else if state.p2Integrity.digests.length ≥ 2 ^ 32 then keep state
            else
              match p2DigestRegion hash .directory fieldOrdinal blockDirBase encodedDirectory
                state.p2Integrity.digests.length with
              | none => keep state
              | some directoryIntegrity =>
                match (List.range termCount).mapM (channels.termEntry blockDirBase) with
                | none => keep state
                | some entries =>
                  let encodedEntries := entries.flatMap encodeTermEntry
                  match segment.append encodedEntries with
                  | (none, segment) => keep { state with postingsSegment := some segment }
                  | (some entriesBase, segment) =>
                    let state := { state with postingsSegment := some segment }
                    let entriesDigestStart :=
                      state.p2Integrity.digests.length + directoryIntegrity.digests.length
                    if entriesDigestStart ≥ 2 ^ 32 then keep state
                    else
                      match p2DigestRegion hash .entries fieldOrdinal entriesBase encodedEntries
                        entriesDigestStart with
                      | none => keep state
                      | some entriesIntegrity =>
                        match state.p2Integrity.publish directoryIntegrity entriesIntegrity with
                        | (none, p2Integrity) => keep { state with p2Integrity }
                        | (some fieldIntegrity, p2Integrity) =>
                          ({ state with p2Integrity },
                            { segmentDescriptors := []
                              offsets := []
                              blockOffsets := []
                              blockDirectory := []
                              blockDirOffsets := []
                              termEntriesDirectory := some (entriesBase, termCount)
                              p2Integrity := some fieldIntegrity })

end Surch.Postings
