import Surch.Api.AppState
import Surch.Api.IndexSettings
import Surch.Lib.Ledger

/-! What the store keeps of its indices apart from what is derived: the mapping, the settings and the
documents of each, its aliases, and the templates that a new index starts from. -/
namespace Surch.Api
open Surch.Lib Surch.Index

/- An index without its inverted index; its documents in the order of their numbers. Settings are always
an object. -/
structure StoredIndex where
  mapping : IndexMapping
  settings : SortedMap String Value
  documents : Ledger String Value

namespace StoredIndex

def new (mapping : IndexMapping) (settings : SortedMap String Value) : StoredIndex :=
  ⟨mapping, settings, .empty⟩

/- A document that is known keeps its number; another one takes the next. -/
def upsertDocument (data : StoredIndex) (id : String) (source : Value) : StoredIndex :=
  { data with mapping := ensureFields data.mapping source, documents := data.documents.put id source }

def deleteDocument (data : StoredIndex) (id : String) : StoredIndex :=
  { data with documents := data.documents.remove id }

end StoredIndex

section Templates

def mergeMappingFields (target source : IndexMapping) : IndexMapping where
  fields := target.fields.extend source.fields
  analysis := if source.analysis ≠ .default then source.analysis else target.analysis

/- Settings that are no object leave the others as they are. -/
def mergeIntoSettings (target : SortedMap String Value) : Value → SortedMap String Value
  | .object source => ⟨mergeSettingsEntries target.entries source,
      mergeSettingsEntries_sorted target.sorted source⟩
  | _ => target

structure TemplateDefaults where
  mapping : IndexMapping
  settings : SortedMap String Value
  aliases : SortedMap String Value

namespace TemplateDefaults

def default : TemplateDefaults := ⟨.default, .empty, .empty⟩

def merge (defaults : TemplateDefaults) (mapping : IndexMapping) (settings : Value)
    (aliases : SortedMap String Value) : TemplateDefaults where
  mapping := mergeMappingFields defaults.mapping mapping
  settings := mergeIntoSettings defaults.settings settings
  aliases := defaults.aliases.extend aliases

def extend (defaults other : TemplateDefaults) : TemplateDefaults :=
  defaults.merge other.mapping (.object other.settings.entries) other.aliases

end TemplateDefaults

abbrev StoredComponentTemplate := TemplateDefaults

structure StoredIndexTemplate extends TemplateDefaults where
  indexPatterns : List String
  composedOf : List String
  priority : Int

/- The cells of one row of the table of `index_pattern_matches`, from the row above and the cell to the
left. -/
def patternCells (c : Char) : (diagonal left : Bool) → List Char → List Bool → List Bool
  | diagonal, left, character :: rest, above :: row =>
    let cell :=
      if c = '*' then above || left
      else if c = '?' then diagonal
      else c == character && diagonal
    cell :: patternCells c above cell rest row
  | _, _, _, _ => []

def patternRow (index : List Char) (row : List Bool) (c : Char) : List Bool :=
  match row with
  | [] => []
  | first :: rest =>
    let start := c == '*' && first
    start :: patternCells c first start index rest

def indexPatternMatches (pattern index : String) : Bool :=
  (pattern.toList.foldl (patternRow index.toList)
    (true :: index.toList.map fun _ => false)).getLastD false

example : indexPatternMatches "dec?s-*" "deces-2024" = true ∧
    indexPatternMatches "deces-*" "deces" = false := by decide +kernel

def matchingIndexTemplates (index : String) (templates : SortedMap String StoredIndexTemplate) :
    List (String × StoredIndexTemplate) :=
  (templates.entries.filter fun entry =>
      entry.2.indexPatterns.any fun pattern => indexPatternMatches pattern index).insertionSort
    fun left right => left.2.priority < right.2.priority ∨
      left.2.priority = right.2.priority ∧ left.1 ≤ right.1

def templateDefaultsForNewIndex (matching : List (String × StoredIndexTemplate)) : TemplateDefaults :=
  matching.foldl (fun defaults entry => defaults.extend entry.2.toTemplateDefaults) .default

def composeComponents (components : SortedMap String StoredComponentTemplate) :
    TemplateDefaults → List String → Except String TemplateDefaults
  | defaults, [] => .ok defaults
  | defaults, name :: rest =>
    match components.get? name with
    | none => .error name
    | some component => composeComponents components (defaults.extend component) rest

def snapshotComponentTemplates (components : SortedMap String StoredComponentTemplate)
    (template : StoredIndexTemplate) : Except String StoredIndexTemplate := do
  let composed ← composeComponents components .default template.composedOf
  return { template with toTemplateDefaults := composed.extend template.toTemplateDefaults }

end Templates

/- An alias has a definition in each index that it stands for. -/
structure Catalog where
  indices : SortedMap String StoredIndex
  aliases : SortedMap String (SortedMap String Value)
  componentTemplates : SortedMap String StoredComponentTemplate
  indexTemplates : SortedMap String StoredIndexTemplate

namespace Catalog

def empty : Catalog := ⟨.empty, .empty, .empty, .empty⟩

variable (catalog : Catalog)

def indexExists (index : String) : Bool := (catalog.indices.get? index).isSome

def put (index : String) (data : StoredIndex) : Catalog :=
  { catalog with indices := catalog.indices.upsert index fun _ => data }

def insertAlias (index aliasName : String) (definition : Value) : Catalog :=
  { catalog with
    aliases := catalog.aliases.upsert aliasName fun indices =>
      (indices.getD .empty).upsert index fun _ => definition }

def insertAliases (index : String) (aliases : SortedMap String Value) : Catalog :=
  aliases.entries.foldl (fun catalog entry => catalog.insertAlias index entry.1 entry.2) catalog

def createIndexIfMissing (index : String) (mapping : IndexMapping) (settings : Value)
    (aliases : SortedMap String Value) : Catalog :=
  if catalog.indexExists index then catalog
  else
    let defaults := templateDefaultsForNewIndex (matchingIndexTemplates index catalog.indexTemplates)
    let created := defaults.merge mapping settings aliases
    (catalog.put index (.new created.mapping created.settings)).insertAliases index created.aliases

/- The implicit creation of the index that a document is written to. -/
def ensureIndex (index : String) : Catalog :=
  catalog.createIndexIfMissing index .default (.object []) .empty

def modify (index : String) (change : StoredIndex → StoredIndex) : Catalog :=
  match catalog.indices.get? index with
  | none => catalog
  | some data => catalog.put index (change data)

def createIndex (index : String) (mapping : Option IndexMapping) (settings : Value)
    (aliases : SortedMap String Value) : Catalog :=
  catalog.createIndexIfMissing index (mapping.getD .default) settings aliases

def indexDocument (index id : String) (source : Value) : Catalog :=
  (catalog.ensureIndex index).modify index fun data => data.upsertDocument id source

def hasDocument (index id : String) : Bool :=
  ((catalog.indices.get? index).map fun data => data.documents.contains id).getD false

def createDocument (index id : String) (source : Value) : Bool × Catalog :=
  let catalog := catalog.ensureIndex index
  if catalog.hasDocument index id then (false, catalog)
  else (true, catalog.modify index fun data => data.upsertDocument id source)

def deleteDocument (index id : String) : Catalog :=
  catalog.modify index fun data => data.deleteDocument id

def applyDocumentWrite : DocumentWriteOperation → DocumentWriteResult × Catalog
  | .index index id source status => (.applied index id status, catalog.indexDocument index id source)
  | .create index id source => match catalog.createDocument index id source with
    | (true, catalog) => (.applied index id 201, catalog)
    | (false, catalog) => (.versionConflict index id, catalog)
  | .delete index id => (.applied index id 200, catalog.deleteDocument index id)

def applyDocumentWrites (operations : List DocumentWriteOperation) : Catalog :=
  operations.foldl (fun catalog operation => (catalog.applyDocumentWrite operation).2) catalog

def setMapping (index : String) (mapping : IndexMapping) : Catalog :=
  (if catalog.indexExists index then catalog else catalog.put index (.new .default .empty)).modify index
    fun data => { data with mapping }

def mergeFieldMappings (index : String) (newFields : List (String × FieldMapping)) : Catalog :=
  catalog.modify index fun data =>
    match MemoryStore.mergeFields data.mapping newFields with
    | none => data
    | some mapping => { data with mapping }

/- The aliases of the index go with it, and those that are left without an index. -/
def deleteIndex (index : String) : Catalog :=
  let removed := catalog.aliases.map fun indices => indices.erase index
  { catalog with
    indices := catalog.indices.erase index
    aliases := ⟨removed.entries.filter fun entry => !entry.2.entries.isEmpty,
      removed.sorted.sublist ((List.filter_sublist).map Prod.fst)⟩ }

def addAliasWithDefinition (index aliasName : String) (definition : Value) : Catalog :=
  if catalog.indexExists index then catalog.insertAlias index aliasName definition else catalog

def removeAlias (index aliasName : String) : Catalog :=
  match catalog.aliases.get? aliasName with
  | none => catalog
  | some indices =>
    let rest := indices.erase index
    { catalog with
      aliases := if rest.entries.isEmpty then catalog.aliases.erase aliasName
        else catalog.aliases.upsert aliasName fun _ => rest }

def putIndexTemplate (name : String) (template : StoredIndexTemplate) : Catalog :=
  match snapshotComponentTemplates catalog.componentTemplates template with
  | .error _ => catalog
  | .ok template =>
    { catalog with indexTemplates := catalog.indexTemplates.upsert name fun _ => template }

def deleteIndexTemplate (name : String) : Catalog :=
  { catalog with indexTemplates := catalog.indexTemplates.erase name }

def putComponentTemplate (name : String) (template : StoredComponentTemplate) : Catalog :=
  { catalog with componentTemplates := catalog.componentTemplates.upsert name fun _ => template }

def deleteComponentTemplate (name : String) : Catalog :=
  { catalog with componentTemplates := catalog.componentTemplates.erase name }

def aliasDefinitionsForIndex (index : String) : SortedMap String Value where
  entries := catalog.aliases.entries.filterMap fun entry =>
    (entry.2.get? index).map fun definition => (entry.1, definition)
  sorted := by
    have kept (entries : List (String × SortedMap String Value)) :
        ((entries.filterMap fun entry => (entry.2.get? index).map fun definition =>
          (entry.1, definition)).map Prod.fst).Sublist (entries.map Prod.fst) := by
      induction entries with
      | nil => exact .slnil
      | cons entry rest ih =>
        rw [List.filterMap_cons]
        cases entry.2.get? index with
        | none => exact ih.cons _
        | some definition => exact ih.cons_cons _
    exact catalog.aliases.sorted.sublist (kept catalog.aliases.entries)

end Catalog

section Events

variable (unicode : Unicode)

structure TemplateRequest where
  mapping : AcceptedMapping unicode
  settings : SortedMap String Value
  aliases : SortedMap String Value

variable {unicode} in
def TemplateRequest.defaults (request : TemplateRequest unicode) : TemplateDefaults :=
  ⟨request.mapping.mapping, request.settings, request.aliases⟩

/- The public operations. Mappings are accepted ones. -/
inductive CatalogEvent where
  | createIndex (index : String) (mapping : Option (AcceptedMapping unicode)) (settings : Value)
    (aliases : SortedMap String Value)
  | indexDocument (index id : String) (source : Value)
  | createDocument (index id : String) (source : Value)
  | deleteDocument (index id : String)
  | applyDocumentWrites (operations : List DocumentWriteOperation)
  | setMapping (index : String) (mapping : AcceptedMapping unicode)
  | mergeFieldMappings (index : String) (mapping : AcceptedMapping unicode)
  | deleteIndex (index : String)
  | addAlias (index aliasName : String) (definition : Value)
  | removeAlias (index aliasName : String)
  | putIndexTemplate (name : String) (indexPatterns composedOf : List String) (priority : Int)
    (template : TemplateRequest unicode)
  | deleteIndexTemplate (name : String)
  | putComponentTemplate (name : String) (template : TemplateRequest unicode)
  | deleteComponentTemplate (name : String)

variable {unicode}

def CatalogEvent.step (catalog : Catalog) : CatalogEvent unicode → Catalog
  | .createIndex index mapping settings aliases =>
    catalog.createIndex index (mapping.map AcceptedMapping.mapping) settings aliases
  | .indexDocument index id source => catalog.indexDocument index id source
  | .createDocument index id source => (catalog.createDocument index id source).2
  | .deleteDocument index id => catalog.deleteDocument index id
  | .applyDocumentWrites operations => catalog.applyDocumentWrites operations
  | .setMapping index mapping => catalog.setMapping index mapping.mapping
  | .mergeFieldMappings index mapping =>
    catalog.mergeFieldMappings index mapping.mapping.fields.entries
  | .deleteIndex index => catalog.deleteIndex index
  | .addAlias index aliasName definition => catalog.addAliasWithDefinition index aliasName definition
  | .removeAlias index aliasName => catalog.removeAlias index aliasName
  | .putIndexTemplate name indexPatterns composedOf priority template =>
    catalog.putIndexTemplate name ⟨template.defaults, indexPatterns, composedOf, priority⟩
  | .deleteIndexTemplate name => catalog.deleteIndexTemplate name
  | .putComponentTemplate name template => catalog.putComponentTemplate name template.defaults
  | .deleteComponentTemplate name => catalog.deleteComponentTemplate name

end Events

end Surch.Api
