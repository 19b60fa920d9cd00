import Surch.Api.IdMaps
import Surch.Index.DocumentIndex

/-! `InMemoryIndex`: the id maps and sources of the stored documents, their mapping, and the inverted
index that is rebuilt from them or appended to. -/
namespace Surch.Api
open Surch.Lib Surch.Index

/- A `serde_json` value. A number is what it prints as, and whether it is a float; an object has its
entries in key order. -/
inductive Value where
  | null
  | bool (value : Bool)
  | number (text : String) (float : Bool)
  | string (value : String)
  | array (values : List Value)
  | object (entries : List (String × Value))

/- `serde_json`: `to_string`, whose bytes `to_vec` gives, and `from_slice`. -/
structure Serde where
  encode : Value → String
  decode : List UInt8 → Option Value

def isNumericString (text : String) : Bool := !text.isEmpty && text.toList.all Char.isDigit

mutual

def inferFieldType : Value → FieldType
  | .string text => if isNumericString text then .keyword else .text
  | .number _ float => if float then .double else .integer
  | .bool _ => .boolean
  | .array values => inferElements values
  | .object _ => .object
  | .null => .unknown

def inferElements : List Value → FieldType
  | [] => .array
  | value :: rest =>
    if inferFieldType value = .unknown then inferElements rest else inferFieldType value

end

/- `ensure_fields`: a field that is not mapped is mapped by its value. -/
def ensureFields (mapping : IndexMapping) : Value → IndexMapping
  | .object entries =>
    entries.foldl
      (fun mapping (field, value) =>
        if (mapping.fields.get? field).isSome then mapping
        else { mapping with
          fields := mapping.fields.upsert field fun _ => .new (inferFieldType value) none })
      mapping
  | _ => mapping

mutual

/- `scalar_values`: an object is text only in a mapped field. -/
def scalarValues (serde : Serde) (mapped : Bool) : Value → List String
  | .string value => [value]
  | .number text _ => [text]
  | .bool value => [toString value]
  | .array values => scalarElements serde mapped values
  | .object entries => if mapped then [serde.encode (.object entries)] else []
  | .null => []

def scalarElements (serde : Serde) (mapped : Bool) : List Value → List String
  | [] => []
  | value :: rest => scalarValues serde mapped value ++ scalarElements serde mapped rest

end

def indexedFieldsForDocument (serde : Serde) (mapping : IndexMapping) : Value → List (String × String)
  | .object entries =>
    entries.flatMap fun (name, value) =>
      (scalarValues serde (mapping.fields.get? name).isSome value).map fun value => (name, value)
  | _ => []

/- What a process is configured with, and what its templates give a new index. -/
structure Environment (Digest : Type) where
  settings : Settings Digest
  zstd : Zstd
  inflate : List UInt8 → Option (List UInt8)
  serde : Serde
  sourceWriteMode : SourceWriteMode
  densifyBudgetDocs : Option Nat
  templateMapping : String → IndexMapping

structure Occasion where
  files : Files
  memoryBytes : Nat

structure InMemoryIndex (Digest : Type) where
  maps : IdMaps
  mapping : IndexMapping
  index : DocumentIndex Digest
  termsFinalized : Bool

namespace InMemoryIndex

variable {Digest : Type}

def new (epoch : Nat) (mapping : IndexMapping) : InMemoryIndex Digest where
  maps := .new epoch
  mapping := mapping
  index := .new
  termsFinalized := false

variable (env : Environment Digest) (data : InMemoryIndex Digest)

/- `parse_source_blob`; a stored document that cannot be read back panics. The block cache is left
out: it holds what the file holds. -/
def parseSourceBlob (store : SourceStore) : SourceBlob → Option Value
  | .onDisk offset length codec => do
    let (bytes, _) ← readOnDiskBytes env.zstd store none offset length codec
    env.serde.decode bytes
  | .compressed bytes => do
    let decoded ← env.inflate bytes
    env.serde.decode decoded

def upsertDocumentDeferred (id : String) (source : Value) : Option (InMemoryIndex Digest) := do
  let maps ← data.maps.upsertDocumentDeferred env.zstd env.sourceWriteMode id
    (utf8 (env.serde.encode source))
  return { data with maps, mapping := ensureFields data.mapping source }

def deleteDocumentDeferred (id : String) : Bool × InMemoryIndex Digest :=
  let (deleted, maps) := data.maps.deleteDocumentDeferred id
  (deleted, { data with maps })

def storedDocument (docId : Nat) : Option (Option Document) :=
  match data.maps.blobForDocId docId with
  | none => some none
  | some blob => do
    let parsed ← parseSourceBlob env data.maps.sourceStore blob
    return some
      { docId := docId % 2 ^ 32
        fields := indexedFieldsForDocument env.serde data.mapping parsed
        docId_fits := Nat.mod_lt _ (by decide) }

def storedDocuments (docIds : List Nat) : Option (List Document) :=
  (docIds.mapM (data.storedDocument env)).map List.reduceOption

def rebuildIndex (occasion : Occasion) : Option (InMemoryIndex Digest) := do
  let documents ← data.storedDocuments env (List.range data.maps.nextDocId)
  return { data with
    index := (data.index.clear.addDocuments env.settings documents data.mapping true
      occasion.files).2
    termsFinalized := false }

def appendToIndex (newDocIds : List Nat) (occasion : Occasion) : Option (InMemoryIndex Digest) :=
  if newDocIds.isEmpty then some data
  else if data.termsFinalized then data.rebuildIndex env occasion
  else do
    let documents ← data.storedDocuments env newDocIds
    let index := (data.index.addDocuments env.settings documents data.mapping true occasion.files).2
    let index ← index.maybeFlushByBudget env.settings occasion.memoryBytes occasion.files
    let maps ← data.maps.maybeDensifyByBudget env.zstd env.densifyBudgetDocs
    return { data with index, maps }

def finalizeTermsForRefresh (occasion : Occasion) : Option (InMemoryIndex Digest) :=
  if data.termsFinalized then some data
  else do
    let maps ← data.maps.densify env.zstd
    let index ← data.index.materializeTermsAndFinalizePostings env.settings occasion.files
    return { data with maps, index, termsFinalized := true }

def upsertDocument (id : String) (source : Value) (occasion : Occasion) :
    Option (InMemoryIndex Digest) := do
  let data ← data.upsertDocumentDeferred env id source
  data.rebuildIndex env occasion

def deleteDocument (id : String) (occasion : Occasion) : Option (InMemoryIndex Digest) :=
  let (deleted, data) := data.deleteDocumentDeferred id
  if deleted then data.rebuildIndex env occasion else some data

def setMapping (mapping : IndexMapping) (occasion : Occasion) : Option (InMemoryIndex Digest) :=
  { data with mapping }.rebuildIndex env occasion

end InMemoryIndex

end Surch.Api
