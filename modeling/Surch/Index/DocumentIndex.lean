import Mathlib.Data.Finset.Insert
import Surch.Index.Analysis
import Surch.Index.Lengths
import Surch.Index.LiveDocs
import Surch.Index.Subfields
import Surch.Postings.Dictionary

/-! `DocumentIndex`: documents are added to the active segment, which is sealed by a flush or a
refresh; runs of sealed segments are merged. -/
namespace Surch.Index
open Surch.Lib Surch.Codec Surch.Postings

variable {Digest : Type}

def emptyTerms : TermDictionary Digest where
  fields := .empty
  postingsSegment := none
  postingsSkippedTerms := 0
  diskEnabled := false
  p2Integrity := (P2IntegrityBuilder.withMaxBytes 0).finish

/- Postings and identifiers handed to readers are global; the columns are indexed from `docBase`.
`docCount` is set when the segment is sealed. -/
structure Segment (Digest : Type) where
  terms : TermDictionary Digest
  fieldStats : SortedMap String FieldLengthStats
  subfieldValues : SortedMap String SubfieldColumn
  liveDocs : LiveDocsBitset
  docBase : Nat
  docCount : Nat
  subfieldSegment : Option SubfieldSegment

def Segment.new (docBase : Nat) : Segment Digest where
  terms := emptyTerms
  fieldStats := .empty
  subfieldValues := .empty
  liveDocs := .default
  docBase := docBase
  docCount := 0
  subfieldSegment := none

/- The configuration an index resolves from its overrides and the environment. -/
structure Settings (Digest : Type) where
  flushBudgetBytes : Option Nat
  mergeFanin : Nat
  mergeMaxDocs : Option Nat
  postingsDiskEnabled : Bool
  hash : List UInt8 → Digest
  unicode : Unicode

/- The last of the segments is the active one; there always is one. -/
structure DocumentIndex (Digest : Type) where
  sealedSegments : List (Segment Digest)
  active : Segment Digest
  postingsBuilder : PostingsBuilder
  prefixPostings : SortedMap String (SortedMap String (Finset Nat))
  termsDirty : Bool
  nextDocIdHint : Nat

inductive DocumentIndexError where
  | duplicateDocId (docId : Nat)
  | emptyFieldName
  | postings (error : PostingsError)
deriving DecidableEq, Repr

/- The files one operation opens, in the order it opens them. -/
abbrev Files := Nat → Device

namespace Segment

variable (segment : Segment Digest)

/- `seal_subfield_columns`. A file is opened only when there is something to spill. -/
def sealSubfieldColumns (diskEnabled : Bool) (device : Device) : Segment Digest :=
  let needsSpill := diskEnabled && segment.subfieldSegment.isNone &&
    segment.subfieldValues.entries.any fun entry => entry.2.disk.isNone && !entry.2.dict.isEmpty
  let store := if needsSpill then PostingsSegment.tryNew device else none
  let ((store, anySpilled), subfieldValues) := segment.subfieldValues.mapAccum
    (fun state _ _ column => sealColumn state column) (store, false)
  { segment with
    subfieldValues
    subfieldSegment := if anySpilled then store else segment.subfieldSegment }

/- What the segment contributes to the postings of a term: a disk-backed dictionary is decoded, a
resident one read from its flat channels. -/
def termPostings (field term : String) : Option TermPostings :=
  if segment.terms.diskBacked then segment.terms.decodeFromSegment field term
  else (segment.terms.postingsWithBlockMetas field term).map fun list => (list.docIds, list.freqs)

def subfieldSource (path : String) : SubfieldSource where
  column := segment.subfieldValues.get? path
  store := segment.subfieldSegment
  docCount := segment.docCount

end Segment

section Merge

def mergeStats (run : List (Segment Digest)) (field : String) : FieldLengthStats :=
  run.foldl
    (fun merged segment =>
      match segment.fieldStats.get? field with
      | some stats =>
        { docCount := merged.docCount + stats.docCount
          totalTerms := merged.totalTerms + stats.totalTerms
          docLenDense := merged.docLenDense ++ stats.docLenDense ++
            List.replicate (segment.docCount - stats.docLenDense.length) 0
          minDocLen := joinMin merged.minDocLen stats.minDocLen? }
      | none =>
        { merged with
          docLenDense := merged.docLenDense ++ List.replicate segment.docCount 0 })
    .default

def mergeFieldStats (run : List (Segment Digest)) : SortedMap String FieldLengthStats :=
  .ofKeys (run.flatMap fun segment => segment.fieldStats.keys) (mergeStats run)

def mergeSubfieldValues (run : List (Segment Digest)) (diskEnabled : Bool) (device : Device) :
    SortedMap String SubfieldColumn × Option SubfieldSegment :=
  let paths : SortedMap String Unit :=
    .ofKeys (run.flatMap fun segment => segment.subfieldValues.keys) fun _ => ()
  let store := if diskEnabled then PostingsSegment.tryNew device else none
  let (store, merged) := paths.mapAccum
    (fun store _ path _ =>
      let (column, store) :=
        mergeSubfieldColumn (run.map fun segment => segment.subfieldSource path) store
      (store, column))
    store
  let ((store, anySpilled), merged) := merged.mapAccum
    (fun state _ _ column => catchUpColumn state column) (store, false)
  (merged, if anySpilled then store else none)

def subU32 (a b : Nat) : Nat := (a + 2 ^ 32 - b) % 2 ^ 32

def mergeLiveDocs (run : List (Segment Digest)) (mergedDocBase : Nat) : LiveDocsBitset :=
  run.foldl
    (fun merged segment =>
      segment.liveDocs.iter.foldl
        (fun merged docId => merged.insert ((docId + subU32 segment.docBase mergedDocBase) % 2 ^ 32))
        merged)
    .default

end Merge

section Selection

def sizeRatio : Nat := 10

def extendRun (maxDocs : Option Nat) (runMin runMax runSum : Nat) : List Nat → Nat
  | [] => 0
  | size :: rest =>
    let candidateMin := min runMin size
    let candidateMax := max runMax size
    let candidateSum := saturatingAddU64 runSum size
    if candidateMax > min (candidateMin * sizeRatio) (2 ^ 64 - 1) then 0
    else if maxDocs.any (candidateSum > ·) then 0
    else 1 + extendRun maxDocs candidateMin candidateMax candidateSum rest

def runLength (maxDocs : Option Nat) (sizes : List Nat) (start : Nat) : Nat :=
  let first := sizes.getD start 0
  1 + extendRun maxDocs first first first (sizes.drop (start + 1))

def selectRun (fanin : Nat) (maxDocs : Option Nat) (sizes : List Nat) : Option (Nat × Nat) :=
  (List.range sizes.length).foldl
    (fun best start =>
      let len := runLength maxDocs sizes start
      if len ≥ fanin ∧ best.all (fun kept => len > kept.2 - kept.1) then some (start, start + len)
      else best)
    none

end Selection

namespace DocumentIndex

def new : DocumentIndex Digest where
  sealedSegments := []
  active := .new 0
  postingsBuilder := .new
  prefixPostings := .empty
  termsDirty := false
  nextDocIdHint := 0

variable (settings : Settings Digest) (index : DocumentIndex Digest)

def segments : List (Segment Digest) := index.sealedSegments ++ [index.active]

/- The free part of the global ceiling once the segments in a range are replaced. -/
def p2IntegrityBudgetExcluding (start ending : Nat) : Nat :=
  let kept := index.segments.take start ++ index.segments.drop ending
  let used := (kept.map fun segment => segment.terms.p2Integrity.bytes).foldl saturatingAddU64 0
  p2IntegrityMaxBytes - used

def buildActiveTerms (files : Files) : TermDictionary Digest :=
  let active := index.segments.length - 1
  index.postingsBuilder.buildWithLimit settings.hash (files 0) settings.postingsDiskEnabled
    (index.p2IntegrityBudgetExcluding active (active + 1))

def materializeTerms (files : Files) : DocumentIndex Digest :=
  if !index.termsDirty then index
  else
    { index with
      active := { index.active with terms := index.buildActiveTerms settings files }
      termsDirty := false }

/- `materialize_active_segment_terms`: the builder is moved out, and dropped when there is nothing
to build. -/
def materializeActiveSegmentTerms (files : Files) : DocumentIndex Digest :=
  let terms :=
    if index.termsDirty then index.buildActiveTerms settings files else index.active.terms
  { index with
    active := { index.active with terms }.sealSubfieldColumns settings.postingsDiskEnabled (files 1)
    termsDirty := false
    postingsBuilder := .new }

def startNewActiveSegmentIfNonempty : DocumentIndex Digest :=
  if index.nextDocIdHint ≤ index.active.docBase then index
  else
    { index with
      sealedSegments := index.sealedSegments ++
        [{ index.active with docCount := index.nextDocIdHint - index.active.docBase }]
      active := .new index.nextDocIdHint }

def findEligibleMergeRun (fanin : Nat) (maxDocs : Option Nat) : Option (Nat × Nat) :=
  if index.sealedSegments.length < fanin then none
  else selectRun fanin maxDocs (index.sealedSegments.map Segment.docCount)

/- The segment a run of sealed segments is merged into; none is a panic. -/
def mergedSegment (run : List (Segment Digest)) (budget : Nat) (termsFile subfieldFile : Device) :
    Option (Segment Digest) := do
  let docBase := (run.head?.map Segment.docBase).getD 0
  let terms ← mergeTermDictionaries settings.hash termsFile (run.map Segment.terms)
    settings.postingsDiskEnabled budget
  let (subfieldValues, subfieldSegment) :=
    mergeSubfieldValues run settings.postingsDiskEnabled subfieldFile
  return { terms
           fieldStats := mergeFieldStats run
           subfieldValues
           liveDocs := mergeLiveDocs run docBase
           docBase
           docCount := (run.map Segment.docCount).sum % 2 ^ 32
           subfieldSegment }

def mergeSegmentsRun (start ending : Nat) (termsFile subfieldFile : Device) :
    Option (DocumentIndex Digest) := do
  let run := (index.sealedSegments.drop start).take (ending - start)
  let merged ← mergedSegment settings run (index.p2IntegrityBudgetExcluding start ending) termsFile
    subfieldFile
  return { index with
    sealedSegments := index.sealedSegments.take start ++ [merged] ++
      index.sealedSegments.drop ending }

/- The loop of `maybe_merge_after_seal`. Each merge leaves fewer segments, so that their number
bounds the iterations. -/
def mergeLoop (files : Files) : Nat → DocumentIndex Digest → Option (DocumentIndex Digest)
  | 0, index => some index
  | fuel + 1, index =>
    match index.findEligibleMergeRun settings.mergeFanin settings.mergeMaxDocs with
    | none => some index
    | some (start, ending) => do
      let merged ← index.mergeSegmentsRun settings start ending (files (2 * fuel + 2))
        (files (2 * fuel + 3))
      mergeLoop files fuel merged

def maybeMergeAfterSeal (files : Files) : Option (DocumentIndex Digest) :=
  if settings.mergeFanin < 2 then some index
  else index.mergeLoop settings files index.sealedSegments.length

def sealActive (files : Files) : DocumentIndex Digest :=
  (index.materializeActiveSegmentTerms settings files).startNewActiveSegmentIfNonempty

/- `memoryBytes` is what the builder estimates of itself, which depends on its allocations. -/
def maybeFlushByBudget (memoryBytes : Nat) (files : Files) : Option (DocumentIndex Digest) :=
  match settings.flushBudgetBytes with
  | none => some index
  | some budget =>
    if memoryBytes < budget then some index
    else (index.sealActive settings files).maybeMergeAfterSeal settings files

def materializeTermsAndFinalizePostings (files : Files) : Option (DocumentIndex Digest) :=
  if settings.flushBudgetBytes.isSome then
    (index.sealActive settings files).maybeMergeAfterSeal settings files
  else some (index.materializeActiveSegmentTerms settings files)

/- `clear`: a single segment is emptied in place, several are replaced by a fresh one. -/
def clear : DocumentIndex Digest :=
  let index := { index with
    postingsBuilder := .new
    prefixPostings := .empty
    termsDirty := false
    nextDocIdHint := 0 }
  match index.sealedSegments with
  | [] =>
    { index with
      active := { index.active with
        liveDocs := .default
        terms := emptyTerms
        fieldStats := .empty
        subfieldValues := .empty
        subfieldSegment := none
        docBase := 0
        docCount := 0 } }
  | _ => { index with sealedSegments := [], active := .new 0 }

section Add

def validateDocument (seen : List Nat) (document : Document) : Except DocumentIndexError Unit :=
  if document.docId < index.active.docBase ∨
      index.active.liveDocs.contains (document.docId - index.active.docBase) ∨
      document.docId ∈ seen then
    .error (.duplicateDocId document.docId)
  else if document.fields.any fun field => isBlank field.1 then .error .emptyFieldName
  else .ok ()

def validateFrom (seen : List Nat) : List Document → Except DocumentIndexError Unit
  | [] => .ok ()
  | document :: rest => do
    index.validateDocument seen document
    validateFrom (document.docId :: seen) rest

def validate (documents : List Document) : Except DocumentIndexError Unit :=
  index.validateFrom [] documents

/- The identifier inside the active segment. The subtraction is checked; validation has refused
what lies below the base. -/
def localDocId (docId : Nat) : Nat := docId - index.active.docBase

def recordSubfieldValues (document : AnalyzedDocument) : DocumentIndex Digest :=
  { index with
    active := { index.active with
      subfieldValues := document.subfieldValues.foldl
        (fun columns (path, stored) =>
          columns.upsert path fun column =>
            (column.getD .default).set (index.localDocId document.docId) stored)
        index.active.subfieldValues } }

def recordPrefixes (document : AnalyzedDocument) : DocumentIndex Digest :=
  { index with
    prefixPostings := document.prefixes.foldl
      (fun postings (field, term) =>
        postings.upsert field fun terms =>
          (terms.getD .empty).upsert term fun docIds => insert document.docId (docIds.getD ∅))
      index.prefixPostings }

/- Postings are pushed until one is refused; those before it stay. -/
def recordPostings (docId : Nat) (builder : PostingsBuilder) :
    List (String × String × List Nat) → Except PostingsError Unit × PostingsBuilder
  | [] => (.ok (), builder)
  | (field, term, positions) :: rest =>
    match builder.add field term docId positions with
    | .ok builder => recordPostings docId builder rest
    | .error error => (.error error, builder)

def recordLengths (document : AnalyzedDocument) : DocumentIndex Digest :=
  { index with
    active := { index.active with
      fieldStats := document.fieldLengths.entries.foldl
        (fun stats (field, docLen, normsEnabled) =>
          stats.upsert field fun lengths =>
            (lengths.getD .default).recordDocLen (index.localDocId document.docId) docLen
              normsEnabled)
        index.active.fieldStats
      liveDocs := index.active.liveDocs.insert (index.localDocId document.docId) }
    nextDocIdHint := max index.nextDocIdHint (min (document.docId + 1) (2 ^ 32 - 1)) }

/- `merge_analyzed`: what was written before a refused posting stays written. -/
def mergeAnalyzed (document : AnalyzedDocument) :
    Except DocumentIndexError Unit × DocumentIndex Digest :=
  let index := (index.recordSubfieldValues document).recordPrefixes document
  match recordPostings document.docId index.postingsBuilder document.postings with
  | (.error error, postingsBuilder) => (.error (.postings error), { index with postingsBuilder })
  | (.ok (), postingsBuilder) =>
    (.ok (), { index with postingsBuilder }.recordLengths document)

def mergeAll (index : DocumentIndex Digest) :
    List AnalyzedDocument → Except DocumentIndexError Unit × DocumentIndex Digest
  | [] => (.ok (), index)
  | document :: rest =>
    match index.mergeAnalyzed document with
    | (.error error, index) => (.error error, index)
    | (.ok (), index) => mergeAll index rest

def addDocuments (documents : List Document) (mapping : IndexMapping) (deferred : Bool)
    (files : Files) : Except DocumentIndexError Unit × DocumentIndex Digest :=
  match index.validate documents with
  | .error error => (.error error, index)
  | .ok () =>
    match index.mergeAll (documents.map (analyzeDocument settings.unicode mapping)) with
    | (.error error, index) => (.error error, index)
    | (.ok (), index) =>
      if deferred then (.ok (), { index with termsDirty := true })
      else
        (.ok (),
          { index with
            active := { index.active with terms := index.buildActiveTerms settings files }
            termsDirty := false })

end Add

section Readers

def decodeFromSegment (field term : String) : Option TermPostings :=
  match index.sealedSegments with
  | [] => index.active.terms.decodeFromSegment field term
  | _ =>
    let found := index.segments.filterMap fun segment => segment.termPostings field term
    if found.isEmpty then none else some (concatPostings found)

def docIds : List Nat :=
  index.segments.flatMap fun segment =>
    segment.liveDocs.iter.map fun docId => (docId + segment.docBase) % 2 ^ 32

structure AggregatedFieldStats where
  docCount : Nat
  totalTerms : Nat
  minDocLen : Nat
deriving DecidableEq, Repr

def fieldStatsAggregated (field : String) : Option AggregatedFieldStats :=
  let found := index.segments.filterMap fun segment => segment.fieldStats.get? field
  if found.isEmpty then none
  else
    some
      { docCount := (found.map FieldLengthStats.docCount).sum
        totalTerms := (found.map FieldLengthStats.totalTerms).sum
        minDocLen := (found.map FieldLengthStats.minDocLen?).foldl joinMin 0 }

def fieldStatsSegments (field : String) : List (Nat × FieldLengthStats) :=
  index.segments.filterMap fun segment =>
    (segment.fieldStats.get? field).map fun stats => (segment.docBase, stats)

/- The length of a document as scoring reads it: directly with one segment, else in the last
segment with this field whose base is not above the document. -/
def docLen (field : String) (docId : Nat) : Option Nat :=
  match index.sealedSegments with
  | [] => (index.active.fieldStats.get? field).bind fun stats => stats.docLen docId
  | _ => do
    let owners := (index.fieldStatsSegments field).takeWhile fun owner => owner.1 ≤ docId
    let (docBase, stats) ← owners.getLast?
    let byte ← stats.docLenDense[docId - docBase]?
    if byte > 0 then some (decodeDocLenByte byte) else none

end Readers

end DocumentIndex

inductive Step where
  | addDocuments (documents : List Document) (mapping : IndexMapping) (deferred : Bool)
    (files : Files)
  | materializeTerms (files : Files)
  | maybeFlushByBudget (memoryBytes : Nat) (files : Files)
  | materializeTermsAndFinalizePostings (files : Files)
  | clear

namespace DocumentIndex

variable (settings : Settings Digest)

def step (index : DocumentIndex Digest) : Step → Option (DocumentIndex Digest)
  | .addDocuments documents mapping deferred files =>
    some (index.addDocuments settings documents mapping deferred files).2
  | .materializeTerms files => some (index.materializeTerms settings files)
  | .maybeFlushByBudget memoryBytes files => index.maybeFlushByBudget settings memoryBytes files
  | .materializeTermsAndFinalizePostings files =>
    index.materializeTermsAndFinalizePostings settings files
  | .clear => some index.clear

def run (index : DocumentIndex Digest) : List Step → Option (DocumentIndex Digest)
  | [] => some index
  | action :: rest => do
    let next ← index.step settings action
    run next rest

end DocumentIndex

end Surch.Index
