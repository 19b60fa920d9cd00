import Surch.Lib.Decimal
import Surch.Lib.Program
import Surch.Store.Wal

/-! `SegmentStore`: records in immutable segment files. A call changes the directory one file at a
time: each atomic write and each removal is one request. -/
namespace Surch.Store
open Surch.Lib

structure SegmentMetadata where
  fileName : String
  records : Nat
deriving DecidableEq

structure PersistedSegment where
  metadata : SegmentMetadata
  records : List WalRecord
deriving DecidableEq

inductive SegmentStoreError where
  | io (message : String)
  | invalidSegmentFile (fileName : String)
deriving DecidableEq

/- The directory of an index store: `wal/wal.log` and `segments/`. A segment file is the value that
`serde_json` wrote into it; temporary files are read by nobody and left out. -/
structure StoreDir where
  wal : Option (List UInt8)
  segments : SortedMap String PersistedSegment
deriving DecidableEq

def StoreDir.empty : StoreDir := ⟨none, .empty⟩

section Requests

inductive StoreRequest where
  | look
  | writeWal (bytes : List UInt8)
  | appendSegment (fileName : String) (segment : PersistedSegment)
  | writeMerged (fileName : String) (segment : PersistedSegment)
  | removeSource (fileName : String)
deriving DecidableEq

/- Reading gives what is there; a change says whether it was made. -/
abbrev StoreAnswer : StoreRequest → Type
  | .look => Option StoreDir
  | _ => Bool

abbrev StoreProgram (R : Type) := Program StoreRequest StoreAnswer R

def look : StoreProgram (Option StoreDir) := Program.request StoreRequest.look
def appendSegment (fileName : String) (segment : PersistedSegment) : StoreProgram Bool :=
  Program.request (StoreRequest.appendSegment fileName segment)
def writeMerged (fileName : String) (segment : PersistedSegment) : StoreProgram Bool :=
  Program.request (StoreRequest.writeMerged fileName segment)
def removeSource (fileName : String) : StoreProgram Bool := Program.request (StoreRequest.removeSource fileName)

namespace StoreDir

variable (dir : StoreDir)

def write (fileName : String) (segment : PersistedSegment) : StoreDir :=
  { dir with segments := dir.segments.upsert fileName fun _ => segment }

def remove (fileName : String) : StoreDir :=
  { dir with segments := dir.segments.erase fileName }

/- A file that is not there cannot be removed. -/
def serve (failed : Bool) : (q : StoreRequest) → StoreDir → StoreAnswer q × StoreDir
  | .look, dir => (if failed then none else some dir, dir)
  | .writeWal bytes, dir => if failed then (false, dir) else (true, { dir with wal := some bytes })
  | .appendSegment fileName segment, dir =>
    if failed then (false, dir) else (true, dir.write fileName segment)
  | .writeMerged fileName segment, dir =>
    if failed then (false, dir) else (true, dir.write fileName segment)
  | .removeSource fileName, dir =>
    if failed ∨ (dir.segments.get? fileName).isNone then (false, dir)
    else (true, dir.remove fileName)

end StoreDir

end Requests

section Names

def segmentPrefix : List Char := "segment_".toList
def segmentSuffix : List Char := ".json".toList

def segmentName (id : Nat) : String :=
  String.ofList (segmentPrefix ++ (zeroPadded 12 id ++ segmentSuffix))

def stripPrefix (start text : List Char) : Option (List Char) :=
  if start.isPrefixOf text then some (text.drop start.length) else none

def stripSuffix (ending text : List Char) : Option (List Char) :=
  if ending.isSuffixOf text then some (text.take (text.length - ending.length)) else none

def parseSegmentId (name : String) : Except SegmentStoreError Nat :=
  match stripPrefix segmentPrefix name.toList with
  | none => .error (.invalidSegmentFile name)
  | some remainder =>
    match stripSuffix segmentSuffix remainder with
    | none => .error (.invalidSegmentFile name)
    | some digits =>
      match parseUnsigned (2 ^ 64) digits with
      | none => .error (.invalidSegmentFile name)
      | some id => .ok id

end Names

structure SegmentStore where
  segments : List SegmentMetadata
  nextSegmentId : Nat
  keepRecentSegments : Nat
deriving DecidableEq

section Reads

def readSegmentRecords (files : SortedMap String PersistedSegment) (fileName : String) :
    Except SegmentStoreError (List WalRecord) :=
  match files.get? fileName with
  | none => .error (.io s!"read segment {fileName}")
  | some segment => .ok segment.records

def readAll (files : SortedMap String PersistedSegment) (segments : List SegmentMetadata) :
    Except SegmentStoreError (List WalRecord) := do
  let records ← segments.mapM fun segment => readSegmentRecords files segment.fileName
  return records.flatten

def readSegmentMetadata (files : SortedMap String PersistedSegment) :
    Except SegmentStoreError (List SegmentMetadata) := do
  let named := files.entries.filter fun file =>
    segmentPrefix.isPrefixOf file.1.toList && segmentSuffix.isSuffixOf file.1.toList
  let segments ← named.mapM fun file => do
    let fileId ← parseSegmentId file.1
    return (fileId, (⟨file.1, file.2.records.length⟩ : SegmentMetadata))
  return (segments.insertionSort fun a b => a.1 ≤ b.1).map Prod.snd

def sortSegments (segments : List SegmentMetadata) : List SegmentMetadata :=
  segments.insertionSort fun a b => a.fileName ≤ b.fileName

def nextSegmentId (segments : List SegmentMetadata) : Nat :=
  (((segments.filterMap fun segment => (parseSegmentId segment.fileName).toOption).max?.getD 0) + 1) %
    2 ^ 64

end Reads

namespace SegmentStore

def openWithConfig (files : SortedMap String PersistedSegment) (keepRecentSegments : Nat) :
    Except SegmentStoreError SegmentStore := do
  let segments ← readSegmentMetadata files
  let segments := sortSegments segments
  return {
    segments
    nextSegmentId := Store.nextSegmentId segments
    keepRecentSegments := max keepRecentSegments 1 }

variable (store : SegmentStore)

def nextSegmentName : String × SegmentStore :=
  (segmentName store.nextSegmentId,
    { store with nextSegmentId := (store.nextSegmentId + 1) % 2 ^ 64 })

def allRecords (dir : StoreDir) : Except SegmentStoreError (List WalRecord) :=
  readAll dir.segments store.segments

abbrev Outcome (α : Type) := Except SegmentStoreError α × SegmentStore

def appendEntries (entries : List WalRecord) :
    StoreProgram (Outcome (Option SegmentMetadata)) :=
  if entries.isEmpty then return (.ok none, store)
  else do
    let (fileName, store) := store.nextSegmentName
    let metadata : SegmentMetadata := ⟨fileName, entries.length⟩
    let written ← appendSegment fileName ⟨metadata, entries⟩
    if written then
      return (.ok (some metadata), { store with segments := store.segments ++ [metadata] })
    else return (.error (.io s!"write segment {fileName}"), store)

def removeSources : List String → StoreProgram (Except SegmentStoreError Unit)
  | [] => return .ok ()
  | fileName :: rest => do
    let removed ← removeSource fileName
    if removed then removeSources rest
    else return .error (.io s!"remove merged source segment {fileName}")

def toMerge (count : Nat) : Nat :=
  let safeToMerge := min store.keepRecentSegments (store.segments.length - 1)
  min count (store.segments.length - safeToMerge)

def mergeOldestSegments (count : Nat) : StoreProgram (Outcome (Option SegmentMetadata)) :=
  if count < 2 ∨ store.segments.length ≤ 1 then return (.ok none, store)
  else
    let toMerge := store.toMerge count
    if toMerge = 0 then return (.ok none, store)
    else do
      let files ← look
      match files with
      | none => return (.error (.io "read segment"), store)
      | some dir =>
        match readAll dir.segments (store.segments.take toMerge) with
        | .error error => return (.error error, store)
        | .ok mergedRecords => do
          let (fileName, store) := store.nextSegmentName
          let metadata : SegmentMetadata := ⟨fileName, mergedRecords.length⟩
          let toMergeFileNames := (store.segments.take toMerge).map SegmentMetadata.fileName
          let written ← writeMerged fileName ⟨metadata, mergedRecords⟩
          if written then
            let removed ← removeSources toMergeFileNames
            match removed with
            | .error error => return (.error error, store)
            | .ok () =>
              return (.ok (some metadata),
                { store with segments := metadata :: store.segments.drop toMerge })
          else return (.error (.io s!"write segment {fileName}"), store)

end SegmentStore

end Surch.Store
