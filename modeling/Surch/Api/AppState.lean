import Surch.Api.InMemoryIndex
import Surch.Api.SourceRuns
import Surch.Index.Steps

/-! `AppState`: the indices by name, and what each write does to them under the lock. -/
namespace Surch.Api
open Surch.Lib Surch.Index

variable {Digest : Type}

structure MemoryStore (Digest : Type) where
  indices : SortedMap String (InMemoryIndex Digest)
  epochs : Nat

inductive DocumentWriteOperation where
  | index (index id : String) (source : Value) (status : Nat)
  | create (index id : String) (source : Value)
  | delete (index id : String)

inductive DocumentWriteResult where
  | applied (index id : String) (status : Nat)
  | versionConflict (index id : String)
deriving DecidableEq, Repr

inductive Write where
  | indexDocument (index id : String) (source : Value)
  | createDocument (index id : String) (source : Value)
  | deleteDocument (index id : String)
  | applyDocumentWrites (operations : List DocumentWriteOperation)
  | setMapping (index : String) (mapping : IndexMapping)
  | mergeFieldMappings (index : String) (newFields : List (String × FieldMapping))
  | deleteIndex (index : String)
  | refreshIndex (index : String)

/- Each index meets an operation on an occasion of its own. -/
abbrev Occasions := String → Occasion

structure BulkState (Digest : Type) where
  store : MemoryStore Digest
  touched : SortedMap String Unit
  newDocIds : SortedMap String (List Nat)
  needsFullRebuild : SortedMap String Unit
  results : List DocumentWriteResult

namespace MemoryStore

def empty : MemoryStore Digest := ⟨.empty, 0⟩

variable (env : Environment Digest) (store : MemoryStore Digest)

def put (index : String) (data : InMemoryIndex Digest) : MemoryStore Digest :=
  { store with indices := store.indices.upsert index fun _ => data }

/- A new index draws the next epoch for its source store. -/
def insertNew (index : String) (mapping : IndexMapping) : MemoryStore Digest :=
  { store.put index (.new (store.epochs % 2 ^ 64) mapping) with epochs := store.epochs + 1 }

def createIndexIfMissing (index : String) : MemoryStore Digest :=
  if (store.indices.get? index).isSome then store
  else store.insertNew index (env.templateMapping index)

/- The index a document is written to: it exists after the implicit creation. -/
def data (index : String) : InMemoryIndex Digest :=
  (store.indices.get? index).getD (.new 0 .default)

def indexDocument (index id : String) (source : Value) (occasions : Occasions) :
    Option (MemoryStore Digest) := do
  let store := store.createIndexIfMissing env index
  let data ← (store.data index).upsertDocument env id source (occasions index)
  return store.put index data

def createDocument (index id : String) (source : Value) (occasions : Occasions) :
    Option (Bool × MemoryStore Digest) := do
  let store := store.createIndexIfMissing env index
  if (store.data index).maps.hasDocument id then return (false, store)
  else do
    let data ← (store.data index).upsertDocument env id source (occasions index)
    return (true, store.put index data)

def deleteDocument (index id : String) (occasions : Occasions) : Option (MemoryStore Digest) :=
  match store.indices.get? index with
  | none => some store
  | some data => do
    let data ← data.deleteDocument env id (occasions index)
    return store.put index data

def setMapping (index : String) (mapping : IndexMapping) (occasions : Occasions) :
    Option (MemoryStore Digest) := do
  let store :=
    if (store.indices.get? index).isSome then store else store.insertNew index .default
  let data ← (store.data index).setMapping env mapping (occasions index)
  return store.put index data

def mergeFields (mapping : IndexMapping) : List (String × FieldMapping) → Option IndexMapping
  | [] => some mapping
  | (field, added) :: rest =>
    match mapping.fields.get? field with
    | some existing =>
      if existing.fieldType ≠ added.fieldType then none
      else mergeFields { mapping with fields := mapping.fields.upsert field fun _ => added } rest
    | none => mergeFields { mapping with fields := mapping.fields.upsert field fun _ => added } rest

/- False when the index is missing or a field conflicts; nothing is changed then. -/
def mergeFieldMappings (index : String) (newFields : List (String × FieldMapping))
    (occasions : Occasions) : Option (Bool × MemoryStore Digest) :=
  match store.indices.get? index with
  | none => some (false, store)
  | some data =>
    match mergeFields data.mapping newFields with
    | none => some (false, store)
    | some merged => do
      let data ← data.setMapping env merged (occasions index)
      return (true, store.put index data)

def deleteIndex (index : String) : MemoryStore Digest :=
  { store with indices := store.indices.erase index }

def refreshIndex (index : String) (occasions : Occasions) : Option (MemoryStore Digest) :=
  match store.indices.get? index with
  | none => some store
  | some data => do
    let data ← data.finalizeTermsForRefresh env (occasions index)
    return store.put index data

end MemoryStore

namespace BulkState

variable (env : Environment Digest)

def start (store : MemoryStore Digest) : BulkState Digest := ⟨store, .empty, .empty, .empty, []⟩

variable (state : BulkState Digest)

def touch (index : String) : BulkState Digest :=
  { state with touched := state.touched.upsert index fun _ => () }

def rebuild (index : String) : BulkState Digest :=
  { state with needsFullRebuild := state.needsFullRebuild.upsert index fun _ => () }

def append (index : String) (docId : Option Nat) : BulkState Digest :=
  match docId with
  | none => state
  | some docId =>
    { state with
      newDocIds := state.newDocIds.upsert index fun docIds => docIds.getD [] ++ [docId] }

def answer (result : DocumentWriteResult) : BulkState Digest :=
  { state with results := state.results ++ [result] }

/- One operation of the bulk loop: documents are stored, indexing is deferred. -/
def apply : DocumentWriteOperation → Option (BulkState Digest)
  | .index index id source status => do
    let store := state.store.createIndexIfMissing env index
    let wasPresent := (store.data index).maps.hasDocument id
    let data ← (store.data index).upsertDocumentDeferred env id source
    let state := { state with store := store.put index data }.touch index
    let state :=
      if wasPresent then state.rebuild index else state.append index (data.maps.resolveUid id)
    return state.answer (.applied index id status)
  | .create index id source =>
    let store := state.store.createIndexIfMissing env index
    if (store.data index).maps.hasDocument id then
      some ({ state with store := store }.answer (.versionConflict index id))
    else do
      let data ← (store.data index).upsertDocumentDeferred env id source
      let state := { state with store := store.put index data }.touch index
      return (state.append index (data.maps.resolveUid id)).answer (.applied index id 201)
  | .delete index id =>
    match state.store.indices.get? index with
    | none => some (state.answer (.applied index id 200))
    | some data =>
      let (deleted, data) := data.deleteDocumentDeferred id
      let state := { state with store := state.store.put index data }
      let state := if deleted then (state.touch index).rebuild index else state
      some (state.answer (.applied index id 200))

def applyAll (state : BulkState Digest) : List DocumentWriteOperation → Option (BulkState Digest)
  | [] => some state
  | operation :: rest => do
    let next ← state.apply env operation
    applyAll next rest

def finishIndex (occasions : Occasions) (store : MemoryStore Digest) (index : String) :
    Option (MemoryStore Digest) :=
  match store.indices.get? index with
  | none => some store
  | some data =>
    if (state.needsFullRebuild.get? index).isSome then do
      let data ← data.rebuildIndex env (occasions index)
      return store.put index data
    else
      match state.newDocIds.get? index with
      | some newIds => do
        let data ← data.appendToIndex env newIds (occasions index)
        return store.put index data
      | none => some store

end BulkState

namespace MemoryStore

variable (env : Environment Digest) (store : MemoryStore Digest)

def applyDocumentWrites (operations : List DocumentWriteOperation) (occasions : Occasions) :
    Option (List DocumentWriteResult × List String × MemoryStore Digest) := do
  let state ← (BulkState.start store).applyAll env operations
  let store ← state.touched.keys.foldlM (state.finishIndex env occasions) state.store
  return (state.results, state.touched.keys, store)

def update (occasions : Occasions) : Write → Option (List String × MemoryStore Digest)
  | .indexDocument index id source => do
    let store ← store.indexDocument env index id source occasions
    return ([index], store)
  | .createDocument index id source => do
    let (created, store) ← store.createDocument env index id source occasions
    return (if created then [index] else [], store)
  | .deleteDocument index id => do
    let store ← store.deleteDocument env index id occasions
    return ([index], store)
  | .applyDocumentWrites operations => do
    let (_, touched, store) ← store.applyDocumentWrites env operations occasions
    return (touched, store)
  | .setMapping index mapping => do
    let store ← store.setMapping env index mapping occasions
    return ([index], store)
  | .mergeFieldMappings index newFields => do
    let (merged, store) ← store.mergeFieldMappings env index newFields occasions
    return (if merged then [index] else [], store)
  | .deleteIndex index => some ([index], store.deleteIndex index)
  | .refreshIndex index => do
    let store ← store.refreshIndex env index occasions
    return ([index], store)

/- What a search does first: the terms that are still deferred are built. -/
def ensureTermsReady (index : String) (occasions : Occasions) : MemoryStore Digest :=
  match store.indices.get? index with
  | none => store
  | some data =>
    store.put index
      { data with index := data.index.materializeTerms env.settings (occasions index).files }

end MemoryStore

section Sample

/- The characters of a JSON string that `serde_json` escapes here: quote and backslash. -/
def escapeJson (text : String) : String :=
  String.ofList (text.toList.flatMap fun c => if c = '"' ∨ c = '\\' then ['\\', c] else [c])

mutual

def encodeJson : Value → String
  | .null => "null"
  | .bool value => toString value
  | .number text _ => text
  | .string value => "\"" ++ escapeJson value ++ "\""
  | .array values => "[" ++ encodeElements values ++ "]"
  | .object entries => "\x7b" ++ encodeEntries entries ++ "\x7d"

def encodeElements : List Value → String
  | [] => ""
  | [value] => encodeJson value
  | value :: next :: rest => encodeJson value ++ "," ++ encodeElements (next :: rest)

def encodeEntries : List (String × Value) → String
  | [] => ""
  | [(name, value)] => "\"" ++ escapeJson name ++ "\":" ++ encodeJson value
  | (name, value) :: next :: rest =>
    "\"" ++ escapeJson name ++ "\":" ++ encodeJson value ++ "," ++ encodeEntries (next :: rest)

end

def knownSerde (values : List Value) : Serde where
  encode := encodeJson
  decode bytes := values.find? fun value => utf8 (encodeJson value) = bytes

def sampleEnvironment (values : List Value) : Environment (List UInt8) where
  settings := sampleSettings false
  zstd := storedFrame
  inflate _ := none
  serde := knownSerde values
  sourceWriteMode := .raw
  densifyBudgetDocs := none
  templateMapping _ := .default

def sampleOccasions : Occasions := fun _ => ⟨reliableFiles, 0⟩

end Sample

end Surch.Api
