import Surch.Postings.TermDirectory

/-! `TermDictionary`: built from a `PostingsBuilder` or merged from other dictionaries, resident
or backed by its segment, and read through lossy, checked and attested accessors. -/
namespace Surch.Postings
open Surch.Lib Surch.Codec

/- The term index is a map from sorted terms to their ordinal. -/
abbrev Fst := SortedMap String Nat

structure FieldPostings where
  fst : Fst
  docIdsFlat : List Nat
  freqsFlat : List Nat
  postingsCounts : List Nat
  blockMetasFlat : List BlockMeta
  offsets : List Nat
  blockOffsets : List Nat
  roaring : List (Nat × RoaringDocSet)
  segmentDescriptors : List (Nat × Nat)
  termEntriesDirectory : Option (Nat × Nat)
  blockDirectory : List BlockDirEntry
  blockDirOffsets : List Nat
  p2Integrity : Option P2FieldIntegrity

structure TermDictionary (Digest : Type) where
  fields : SortedMap String FieldPostings
  postingsSegment : Option PostingsSegment
  postingsSkippedTerms : Nat
  diskEnabled : Bool
  p2Integrity : P2IntegrityTable Digest

def slice {α : Type} (flat : List α) (start ending : Nat) : Option (List α) :=
  if start ≤ ending ∧ ending ≤ flat.length then some ((flat.drop start).take (ending - start))
  else none

section Assembly

variable {Digest : Type}

/- The one append of a field's payload. A failed one disables the segment for the rest. -/
def flushPayload (postingsSegment : Option PostingsSegment) (fieldPayload : List UInt8) :
    Option Nat × Option PostingsSegment :=
  if fieldPayload = [] then (none, postingsSegment)
  else
    match postingsSegment with
    | none => (none, none)
    | some segment =>
      match segment.append fieldPayload with
      | (some base, segment) => (some base, some segment)
      | (none, _) => (none, none)

/- Descriptors become absolute, sentinels stay; without a payload all are sentinels. -/
def rebaseDescriptors (fieldBaseOffset : Option Nat) (descriptors : List (Nat × Nat)) :
    List (Nat × Nat) :=
  match fieldBaseOffset with
  | some base => descriptors.map fun d => if d.2 ≠ 0 then (d.1 + base, d.2) else d
  | none => descriptors.map fun _ => (0, 0)

variable (hash : List UInt8 → Digest)

/- The end of a field's loop, in a build and in `FieldMergeAccumulator::finish`. -/
def finishField (diskEnabled : Bool) (fst : Fst) (channels : FieldChannels) (fieldOrdinal : Nat)
    (state : BuildState Digest) : BuildState Digest × FieldPostings :=
  let (fieldBaseOffset, postingsSegment) :=
    flushPayload state.postingsSegment channels.fieldPayload
  let state := { state with
    postingsSegment
    postingsSkippedTerms := state.postingsSkippedTerms + channels.postingsSkippedTerms }
  let (state, tables) := persistOrKeepTermDirectory hash
    { segmentDescriptors := rebaseDescriptors fieldBaseOffset channels.segmentDescriptors
      offsets := channels.offsets
      blockOffsets := channels.blockOffsets
      blockDirectory := channels.blockDirectoryFlat
      blockDirOffsets := channels.blockDirOffsets }
    diskEnabled (if fieldOrdinal < 2 ^ 32 then some fieldOrdinal else none) state
  (state,
    { fst
      docIdsFlat := channels.docIdsFlat
      freqsFlat := channels.freqsFlat
      postingsCounts := channels.postingsCounts
      blockMetasFlat := channels.blockMetasFlat
      offsets := tables.offsets
      blockOffsets := tables.blockOffsets
      roaring := channels.roaring
      segmentDescriptors := tables.segmentDescriptors
      termEntriesDirectory := tables.termEntriesDirectory
      blockDirectory := tables.blockDirectory
      blockDirOffsets := tables.blockDirOffsets
      p2Integrity := tables.p2Integrity })

def finishFields (device : Device) (diskEnabled : Bool) (p2IntegrityMaxBytes : Nat)
    (fields : SortedMap String (Fst × FieldChannels)) :
    BuildState Digest × SortedMap String FieldPostings :=
  fields.mapAccum
    (fun state fieldOrdinal _ field =>
      finishField hash diskEnabled field.1 field.2 fieldOrdinal state)
    { postingsSegment := PostingsSegment.tryNew device
      p2Integrity := .withMaxBytes p2IntegrityMaxBytes
      postingsSkippedTerms := 0 }

def assemble (device : Device) (diskEnabled : Bool) (p2IntegrityMaxBytes : Nat)
    (fields : SortedMap String (Fst × FieldChannels)) : TermDictionary Digest :=
  let (state, fields) := finishFields hash device diskEnabled p2IntegrityMaxBytes fields
  { fields
    postingsSegment := state.postingsSegment
    postingsSkippedTerms := state.postingsSkippedTerms
    diskEnabled
    p2Integrity := state.p2Integrity.finish }

def PostingsBuilder.buildWithLimit (device : Device) (builder : PostingsBuilder)
    (diskEnabled : Bool) (p2IntegrityMaxBytes : Nat) : TermDictionary Digest :=
  let settled := builder.fields.map fun terms => terms.map settle
  assemble hash device diskEnabled p2IntegrityMaxBytes <| settled.map fun terms =>
    (terms.mapIdx fun idx _ _ => idx,
      (terms.entries.map Prod.snd).foldl
        (fun channels termPostings => channels.pushPostings diskEnabled termPostings)
        (FieldChannels.new diskEnabled))

def PostingsBuilder.buildWithDiskFlag (device : Device) (builder : PostingsBuilder)
    (diskEnabled : Bool) : TermDictionary Digest :=
  builder.buildWithLimit hash device diskEnabled p2IntegrityMaxBytes

end Assembly

namespace FieldPostings

def termRange (field : FieldPostings) (term : String) : Option (Nat × Nat × Nat) := do
  let idx ← field.fst.get? term
  let start ← field.offsets[idx]?
  let ending ← field.offsets[idx + 1]?
  return (idx, start, ending)

def lookup (field : FieldPostings) (term : String) : Option TermPostings := do
  let (_, start, ending) ← field.termRange term
  let docIds ← slice field.docIdsFlat start ending
  let freqs ← slice field.freqsFlat start ending
  return (docIds, freqs)

/- The resident block directory locator: a start index, not a byte offset. -/
def residentBlockDir (field : FieldPostings) (idx : Nat) : Nat × Nat :=
  match field.blockDirOffsets[idx]?, field.blockDirOffsets[idx + 1]? with
  | some dirStart, some dirEnd => (dirStart, dirEnd - dirStart)
  | _, _ => (0, 0)

def residentEntry (field : FieldPostings) (idx : Nat) : Option TermEntry := do
  let descriptor ← field.segmentDescriptors[idx]?
  let start ← field.offsets[idx]?
  let ending ← field.offsets[idx + 1]?
  let blockDir := field.residentBlockDir idx
  return { postingsOffset := descriptor.1
           postingsLen := descriptor.2
           postingsCount := (ending - start) % 2 ^ 32
           blockDirOffset := blockDir.1
           blockDirCount := blockDir.2 }

def termEntry (field : FieldPostings) (idx : Nat) (segment : Option PostingsSegment) :
    Option TermEntry :=
  match field.termEntriesDirectory with
  | some (entriesBase, termCount) =>
    if idx ≥ termCount then none
    else do
      let segment ← segment
      let bytes ← segment.read ((entriesBase + idx * termEntryEncodedLen) % 2 ^ 64)
        termEntryEncodedLen
      decodeTermEntry bytes
  | none => field.residentEntry idx

def termEntryChecked (field : FieldPostings) (idx : Nat) (segment : Option PostingsSegment) :
    Except PostingsReadError TermEntry :=
  match field.termEntriesDirectory with
  | some (entriesBase, termCount) =>
    if idx ≥ termCount then .error .corrupt
    else if entriesBase + idx * termEntryEncodedLen ≥ 2 ^ 64 then .error .corrupt
    else
      match segment with
      | none => .error .missingCoverage
      | some segment =>
        match segment.readChecked (entriesBase + idx * termEntryEncodedLen) termEntryEncodedLen with
        | .error _ => .error .io
        | .ok bytes =>
          match decodeTermEntry bytes with
          | none => .error .corrupt
          | some entry => .ok entry
  | none =>
    match field.residentEntry idx with
    | none => .error .corrupt
    | some entry => .ok entry

def blockDirectoryEntries (field : FieldPostings) (entry : TermEntry)
    (segment : Option PostingsSegment) : Option (List BlockDirEntry) :=
  if entry.blockDirCount = 0 then none
  else
    match field.termEntriesDirectory with
    | some _ =>
      if entry.blockDirCount * blockDirEntryEncodedLen ≥ 2 ^ 32 then none
      else do
        let segment ← segment
        let bytes ← segment.read entry.blockDirOffset (entry.blockDirCount * blockDirEntryEncodedLen)
        decodeBlockDirEntries bytes entry.blockDirCount
    | none =>
      if entry.blockDirOffset + entry.blockDirCount ≥ 2 ^ 64 then none
      else slice field.blockDirectory entry.blockDirOffset (entry.blockDirOffset + entry.blockDirCount)

def blockDirectoryEntriesChecked (field : FieldPostings) (entry : TermEntry)
    (segment : Option PostingsSegment) : Except PostingsReadError (Option (List BlockDirEntry)) :=
  if entry.blockDirCount = 0 then .ok none
  else
    match field.termEntriesDirectory with
    | some _ =>
      if entry.blockDirCount * blockDirEntryEncodedLen ≥ 2 ^ 32 then .error .corrupt
      else
        match segment with
        | none => .error .missingCoverage
        | some segment =>
          match segment.readChecked entry.blockDirOffset
              (entry.blockDirCount * blockDirEntryEncodedLen) with
          | .error _ => .error .io
          | .ok bytes =>
            match decodeBlockDirEntries bytes entry.blockDirCount with
            | none => .error .corrupt
            | some entries => .ok (some entries)
    | none =>
      if entry.blockDirOffset + entry.blockDirCount ≥ 2 ^ 64 then .error .corrupt
      else
        match slice field.blockDirectory entry.blockDirOffset
            (entry.blockDirOffset + entry.blockDirCount) with
        | none => .error .corrupt
        | some entries => .ok (some entries)

def lookupBlockMetas (field : FieldPostings) (term : String) : Option (List BlockMeta) := do
  let idx ← field.fst.get? term
  let start ← field.blockOffsets[idx]?
  let ending ← field.blockOffsets[idx + 1]?
  slice field.blockMetasFlat start ending

def lookupRoaring (field : FieldPostings) (termIdx : Nat) : Option RoaringDocSet :=
  (field.roaring.find? fun entry => entry.1 = termIdx).map Prod.snd

end FieldPostings

structure PostingsList where
  docIds : List Nat
  freqs : List Nat
  blockMetas : List BlockMeta
  roaring : Option RoaringDocSet
deriving DecidableEq, Repr

def FieldPostings.lookupWithBlockMetas (field : FieldPostings) (term : String) :
    Option PostingsList := do
  let (idx, start, ending) ← field.termRange term
  let blockStart ← field.blockOffsets[idx]?
  let blockEnd ← field.blockOffsets[idx + 1]?
  let docIds ← slice field.docIdsFlat start ending
  let freqs ← slice field.freqsFlat start ending
  let blockMetas ← slice field.blockMetasFlat blockStart blockEnd
  return { docIds, freqs, blockMetas, roaring := field.lookupRoaring (idx % 2 ^ 32) }

def directoryShape (remaining : Nat) : List BlockDirEntry → Bool
  | [] => remaining == 0
  | entry :: rest =>
    let expectedCount := min remaining forBlockSize
    entry.count == expectedCount &&
      (rest.head?.all fun next =>
        entry.byteOffsetInTermPayload < next.byteOffsetInTermPayload &&
          entry.maxDocId < next.maxDocId) &&
      directoryShape (remaining - expectedCount) rest

def p2DirectoryHasExpectedShape (directory : List BlockDirEntry) (totalCount termPayloadLen : Nat) :
    Bool :=
  totalCount != 0 && directory.length == (totalCount + forBlockSize - 1) / forBlockSize &&
    (directory.head?.any fun entry => entry.byteOffsetInTermPayload == 0) &&
    (directory.getLast?.any fun entry => entry.byteOffsetInTermPayload < termPayloadLen) &&
    directoryShape totalCount directory

section Attested

variable {Digest : Type} [DecidableEq Digest] (hash : List UInt8 → Digest)

def FieldPostings.termEntryP2Verified (field : FieldPostings) (idx : Nat)
    (segment : PostingsSegment) (integrity : P2IntegrityTable Digest) :
    Except PostingsReadError TermEntry :=
  match field.p2Integrity with
  | none => .error .missingCoverage
  | some fieldIntegrity =>
    let region := fieldIntegrity.entries
    if idx * termEntryEncodedLen ≥ 2 ^ 64 then .error .corrupt
    else if region.dataBase + idx * termEntryEncodedLen ≥ 2 ^ 64 then .error .corrupt
    else do
      let bytes ← readVerifiedRange hash segment region integrity
        (region.dataBase + idx * termEntryEncodedLen) termEntryEncodedLen
      match decodeTermEntry bytes with
      | none => .error .corrupt
      | some entry => .ok entry

def FieldPostings.blockDirectoryP2Verified (field : FieldPostings) (entry : TermEntry)
    (expectedBlocks : Nat) (segment : PostingsSegment) (integrity : P2IntegrityTable Digest) :
    Except PostingsReadError (List BlockDirEntry) :=
  match field.p2Integrity with
  | none => .error .missingCoverage
  | some fieldIntegrity =>
    if entry.blockDirCount ≠ expectedBlocks then .error .corrupt
    else do
      let bytes ← readVerifiedRange hash segment fieldIntegrity.directory integrity
        entry.blockDirOffset (entry.blockDirCount * blockDirEntryEncodedLen)
      match decodeBlockDirEntries bytes entry.blockDirCount with
      | none => .error .corrupt
      | some entries => .ok entries

end Attested

namespace TermDictionary

variable {Digest : Type} (dictionary : TermDictionary Digest)

def diskBacked : Bool := dictionary.diskEnabled

def fieldNames : List String := dictionary.fields.keys

def terms (field : String) : List String :=
  ((dictionary.fields.get? field).map fun postings => postings.fst.keys).getD []

def postings (field term : String) : Option TermPostings := do
  let fieldPostings ← dictionary.fields.get? field
  fieldPostings.lookup term

def postingsWithBlockMetas (field term : String) : Option PostingsList := do
  let fieldPostings ← dictionary.fields.get? field
  fieldPostings.lookupWithBlockMetas term

def blockMetas (field term : String) : Option (List BlockMeta) := do
  let fieldPostings ← dictionary.fields.get? field
  fieldPostings.lookupBlockMetas term

def roaringSet (field term : String) : Option RoaringDocSet := do
  let fieldPostings ← dictionary.fields.get? field
  let idx ← fieldPostings.fst.get? term
  fieldPostings.lookupRoaring (idx % 2 ^ 32)

def decodeFromSegmentChecked (field term : String) :
    Except PostingsReadError (Option TermPostings) :=
  match dictionary.fields.get? field with
  | none => .ok none
  | some fieldPostings =>
    match fieldPostings.fst.get? term with
    | none => .ok none
    | some idx => do
      let entry ← fieldPostings.termEntryChecked idx dictionary.postingsSegment
      entry.validate
      match dictionary.postingsSegment with
      | none => .error .missingCoverage
      | some segment =>
        match segment.readChecked entry.postingsOffset entry.postingsLen with
        | .error _ => .error .io
        | .ok bytes => do
          let decoded ← decodePostingsPayloadChecked bytes entry.postingsCount
          .ok (some decoded)

def decodeFromSegment (field term : String) : Option TermPostings := do
  let fieldPostings ← dictionary.fields.get? field
  let idx ← fieldPostings.fst.get? term
  let entry ← fieldPostings.termEntry idx dictionary.postingsSegment
  if entry.postingsLen = 0 then none
  else
    let segment ← dictionary.postingsSegment
    let bytes ← segment.read entry.postingsOffset entry.postingsLen
    (decodePostingsBlocked bytes entry.postingsCount).toOption

def diskCursor (field term : String) : Option DiskPostingsCursor := do
  let fieldPostings ← dictionary.fields.get? field
  let idx ← fieldPostings.fst.get? term
  let entry ← fieldPostings.termEntry idx dictionary.postingsSegment
  if entry.postingsLen = 0 then none
  else
    let segment ← dictionary.postingsSegment
    match fieldPostings.blockDirectoryEntries entry (some segment) with
    | some directory =>
      some (.openWithDirectory segment entry.postingsOffset entry.postingsLen directory
        entry.postingsCount)
    | none =>
      DiskPostingsCursor.open segment entry.postingsOffset entry.postingsLen entry.postingsCount

/- A persisted directory is used only when it equals the recomputed one. -/
def diskCursorChecked (field term : String) :
    Except PostingsReadError (Option DiskPostingsCursor) :=
  match dictionary.fields.get? field with
  | none => .ok none
  | some fieldPostings =>
    match fieldPostings.fst.get? term with
    | none => .ok none
    | some idx => do
      let entry ← fieldPostings.termEntryChecked idx dictionary.postingsSegment
      entry.validate
      match dictionary.postingsSegment with
      | none => .error .missingCoverage
      | some segment => do
        let cursor ← DiskPostingsCursor.openChecked segment entry.postingsOffset entry.postingsLen
          entry.postingsCount
        if entry.blockDirCount = cursor.directory.length then
          match fieldPostings.blockDirectoryEntriesChecked entry (some segment) with
          | .ok (some directory) =>
            if directory = cursor.directory then .ok (some { cursor with directory })
            else .ok (some cursor)
          | _ => .ok (some cursor)
        else .ok (some cursor)

/- The attested opening: entry and directory come from verified pages before any offset of
theirs is used. -/
def diskCursorP2Checked [DecidableEq Digest] (hash : List UInt8 → Digest) (field term : String) :
    Except PostingsReadError (Option DiskPostingsCursor) :=
  match dictionary.fields.get? field with
  | none => .ok none
  | some fieldPostings =>
    match fieldPostings.fst.get? term with
    | none => .ok none
    | some idx =>
      match dictionary.postingsSegment with
      | none => .error .missingCoverage
      | some segment => do
        let entry ← fieldPostings.termEntryP2Verified hash idx segment dictionary.p2Integrity
        entry.validate
        if !segment.containsRange entry.postingsOffset entry.postingsLen then .error .corrupt
        else
          let expectedBlocks := (entry.postingsCount + blockSize - 1) / blockSize
          if expectedBlocks ≥ 2 ^ 32 then .error .corrupt
          else
            let directory ← fieldPostings.blockDirectoryP2Verified hash entry expectedBlocks segment
              dictionary.p2Integrity
            if !p2DirectoryHasExpectedShape directory entry.postingsCount entry.postingsLen then
              .error .corrupt
            else
              .ok (some (.openWithDirectory segment entry.postingsOffset entry.postingsLen directory
                entry.postingsCount))

end TermDictionary

section Merge

variable {Digest : Type} (hash : List UInt8 → Digest)

/- What one source contributes to a term. A resident source is indexed, which panics outside
its tables; one on disk contributes nothing when anything about it cannot be read. -/
def sourcePostings (source : TermDictionary Digest) (field : FieldPostings) (termIdx : Nat) :
    Option TermPostings :=
  if source.diskBacked then
    let read : Option TermPostings := do
      let entry ← field.termEntry termIdx source.postingsSegment
      if entry.postingsLen = 0 then none
      else
        let segment ← source.postingsSegment
        let bytes ← segment.read entry.postingsOffset entry.postingsLen
        (decodePostingsBlocked bytes entry.postingsCount).toOption
    some (read.getD ([], []))
  else do
    let start ← field.offsets[termIdx]?
    let ending ← field.offsets[termIdx + 1]?
    let docIds ← slice field.docIdsFlat start ending
    let freqs ← slice field.freqsFlat start ending
    return (docIds, freqs)

def participants (sources : List (TermDictionary Digest)) (field : String) :
    List (TermDictionary Digest × FieldPostings) :=
  sources.filterMap fun source => (source.fields.get? field).map fun postings => (source, postings)

/- The body of the union loop: the contributions to one term, concatenated. -/
def mergedTerm (sources : List (TermDictionary Digest × FieldPostings)) (term : String) :
    Option TermPostings := do
  let parts ← (sources.filterMap fun source =>
    (source.2.fst.get? term).map fun termIdx => (source, termIdx)).mapM
      fun (source, termIdx) => sourcePostings source.1 source.2 termIdx
  return concatPostings parts

/- All fields and terms of the sources with their merged postings, each key once and in order. -/
def mergedFields (sources : List (TermDictionary Digest)) : Option Inverted :=
  let fieldNames := sources.flatMap fun source => source.fields.keys
  let fields : SortedMap String (Option (SortedMap String TermPostings)) :=
    .ofKeys fieldNames fun field =>
      let sources := participants sources field
      let terms := sources.flatMap fun source => source.2.fst.keys
      (SortedMap.ofKeys terms (mergedTerm sources)).sequence
  fields.sequence

def mergeTermDictionaries (device : Device) (sources : List (TermDictionary Digest))
    (diskEnabled : Bool) (p2IntegrityMaxBytes : Nat) : Option (TermDictionary Digest) := do
  let fields ← mergedFields sources
  return assemble hash device diskEnabled p2IntegrityMaxBytes <| fields.map fun terms =>
    (terms.mapIdx fun idx _ _ => idx % 2 ^ 32,
      (terms.entries.map Prod.snd).foldl
        (fun channels term => channels.pushTerm diskEnabled term.1 term.2)
        (FieldChannels.new diskEnabled))

end Merge

end Surch.Postings
