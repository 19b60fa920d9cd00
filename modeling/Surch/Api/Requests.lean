import Surch.Api.Aliases
import Surch.Lib.Program

/-! What handlers ask of the store, each request under one lock, and the handlers of indices and aliases
as the requests that they make one after the other. Names and bodies have been checked and parsed. -/
namespace Surch.Api
open Surch.Lib Surch.Index

structure OpenSearchError where
  status : Nat
  errorType : String
  reason : String
deriving DecidableEq

section Accesses

variable {unicode : Unicode}

inductive ChangeAnswer where
  | done (ok : Bool)
  | written (results : List DocumentWriteResult)
deriving DecidableEq

def Catalog.writeResults : Catalog → List DocumentWriteOperation → List DocumentWriteResult
  | _, [] => []
  | catalog, operation :: rest =>
    (catalog.applyDocumentWrite operation).1 :: writeResults (catalog.applyDocumentWrite operation).2 rest

def CatalogEvent.answer (catalog : Catalog) : CatalogEvent unicode → ChangeAnswer
  | .createDocument index id source => .done (catalog.createDocument index id source).1
  | .applyDocumentWrites operations => .written (catalog.writeResults operations)
  | .mergeFieldMappings index mapping => .done
    (((catalog.indices.get? index).bind fun data =>
      MemoryStore.mergeFields data.mapping mapping.mapping.fields.entries).isSome)
  | .addAlias index _ _ => .done (catalog.indexExists index)
  | .removeAlias index aliasName => .done ((catalog.indicesForAlias aliasName).contains index)
  | .putIndexTemplate _ indexPatterns composedOf priority template => .done
    (snapshotComponentTemplates catalog.componentTemplates
      ⟨template.defaults, indexPatterns, composedOf, priority⟩).isOk
  | .deleteIndexTemplate name => .done (catalog.indexTemplates.get? name).isSome
  | .deleteComponentTemplate name => .done (catalog.componentTemplates.get? name).isSome
  | _ => .done true

variable (unicode) in
inductive StoreAccess where
  | indexExists (index : String)
  | indexNames
  | aliasExists (aliasName : String)
  | indicesForAlias (aliasName : String)
  | aliasDefinitionsForIndex (index : String)
  | resolveWriteTarget (target : String)
  | resolveIndex (target : String)
  | change (e : CatalogEvent unicode)

namespace StoreAccess

abbrev Answer : StoreAccess unicode → Type
  | .indexExists _ => Bool
  | .indexNames => List String
  | .aliasExists _ => Bool
  | .indicesForAlias _ => List String
  | .aliasDefinitionsForIndex _ => SortedMap String Value
  | .resolveWriteTarget _ => Except String String
  | .resolveIndex _ => List String
  | .change _ => ChangeAnswer

def serve : (access : StoreAccess unicode) → Catalog → access.Answer × Catalog
  | .indexExists index, catalog => (catalog.indexExists index, catalog)
  | .indexNames, catalog => (catalog.indices.keys, catalog)
  | .aliasExists aliasName, catalog => (catalog.aliasExists aliasName, catalog)
  | .indicesForAlias aliasName, catalog => (catalog.indicesForAlias aliasName, catalog)
  | .aliasDefinitionsForIndex index, catalog => (catalog.aliasDefinitionsForIndex index, catalog)
  | .resolveWriteTarget target, catalog => (catalog.resolveWriteTarget target, catalog)
  | .resolveIndex target, catalog => (catalog.resolveIndex target, catalog)
  | .change e, catalog => (e.answer catalog, e.step catalog)

end StoreAccess

variable (unicode) in
abbrev StoreProgram (α : Type) := Program (StoreAccess unicode) StoreAccess.Answer α

variable (unicode) in
def indexExists (index : String) : StoreProgram unicode Bool :=
  Program.request (StoreAccess.indexExists index)

def change (e : CatalogEvent unicode) : StoreProgram unicode ChangeAnswer :=
  Program.request (StoreAccess.change e)

end Accesses

section Handlers

variable (unicode : Unicode)

def indexMissing (index : String) : OpenSearchError :=
  ⟨404, "index_not_found_exception", s!"index [{index}] missing"⟩

def resourceAlreadyExists (index : String) : OpenSearchError :=
  ⟨400, "resource_already_exists_exception", s!"index [{index}] already exists"⟩

inductive AliasAction where
  | add (index aliasName : String) (definition : Value)
  | remove (index aliasName : String)

def checkActions : List AliasAction → StoreProgram unicode (Option OpenSearchError)
  | [] => return none
  | .add index _ _ :: rest => do
    if ← indexExists unicode index then checkActions rest else return some (indexMissing index)
  | .remove _ _ :: rest => checkActions rest

def AliasAction.event : AliasAction → CatalogEvent unicode
  | .add index aliasName definition => .addAlias index aliasName definition
  | .remove index aliasName => .removeAlias index aliasName

def applyActions : List AliasAction → StoreProgram unicode Unit
  | [] => return ()
  | action :: rest => do
    let _ ← change (action.event unicode)
    applyActions rest

/- `POST /_aliases`, an "atomic add/remove batch". -/
def aliasesStateHandler (actions : List AliasAction) : StoreProgram unicode (Except OpenSearchError Unit) := do
  match ← checkActions unicode actions with
  | some error => return .error error
  | none =>
    applyActions unicode actions
    return .ok ()

structure CreateIndexRequest where
  mapping : AcceptedMapping unicode
  settings : Value
  aliases : SortedMap String Value

inductive IndexResponse where
  | created (index : String)
  | deleted (index : String)
  | stored (index id : String)
  | written
  | refused (error : OpenSearchError)
deriving DecidableEq

variable {unicode} in
def createIndexHandler (index : String) (request : CreateIndexRequest unicode) :
    StoreProgram unicode IndexResponse := do
  if ← indexExists unicode index then return .refused (resourceAlreadyExists index)
  else
    let _ ← change (.createIndex index (some request.mapping) request.settings request.aliases)
    return .created index

def deleteIndexHandler (index : String) : StoreProgram unicode IndexResponse := do
  if ← indexExists unicode index then
    let _ ← change (.deleteIndex index)
    return .deleted index
  else return .refused (indexMissing index)

def putDocumentHandler (target id : String) (source : Value) : StoreProgram unicode IndexResponse := do
  match ← (Program.request (StoreAccess.resolveWriteTarget target) : StoreProgram unicode _) with
  | .error reason => return .refused ⟨400, "illegal_argument_exception", reason⟩
  | .ok index =>
    let _ ← change (.indexDocument index id source)
    return .stored index id

def DocumentWriteOperation.target : DocumentWriteOperation → String
  | .index target _ _ _ => target
  | .create target _ _ => target
  | .delete target _ => target

def DocumentWriteOperation.redirect (index : String) : DocumentWriteOperation → DocumentWriteOperation
  | .index _ id source status => .index index id source status
  | .create _ id source => .create index id source
  | .delete _ id => .delete index id

def resolveOperations : List DocumentWriteOperation → StoreProgram unicode (List DocumentWriteOperation)
  | [] => return []
  | operation :: rest => do
    let resolved ← (Program.request (StoreAccess.resolveWriteTarget operation.target) :
      StoreProgram unicode _)
    let writes ← resolveOperations rest
    match resolved with
    | .error _ => return writes
    | .ok index => return operation.redirect index :: writes

def bulkHandler (operations : List DocumentWriteOperation) : StoreProgram unicode IndexResponse := do
  let writes ← resolveOperations unicode operations
  let _ ← change (.applyDocumentWrites writes)
  return .written

end Handlers

end Surch.Api
