import Surch.Api.Bulk
import Surch.Api.CatalogRuns

/-! How templates and new indices are asked for. A template is parsed into a mapping, settings and
aliases, the body of a new index into the same; only the latter reads the analysis that its settings
declare. -/
namespace Surch.Api
open Surch.Lib Surch.Index Surch.Postings

section Requests

def parsingException (reason : String) : OpenSearchError := ⟨400, "parsing_exception", reason⟩

def mapperParsingException (error : MappingError) : OpenSearchError :=
  ⟨400, "mapper_parsing_exception", error.message⟩

def requireObject (reason : String) (value : Value) : Except OpenSearchError (List (String × Value)) :=
  match value.asObject with
  | some entries => .ok entries
  | none => .error (parsingException reason)

def objectMap (entries : List (String × Value)) : SortedMap String Value :=
  entries.foldl (fun map entry => map.upsert entry.1 fun _ => entry.2) .empty

def parsePropertiesObject (context : String) : Option Value → Except OpenSearchError Value
  | none => .ok (.object [])
  | some properties => do
    let _ ← requireObject s!"{context} must be an object" properties
    return properties

/- The properties among the mappings of a request. `request` and `path` are for the errors. -/
def mappingsProperties (request path : String) (mappings : Value) : Except OpenSearchError Value := do
  let mappings ← requireObject s!"{request} `{path}` must be an object" mappings
  match mappings.lookup "properties" with
  | some properties => parsePropertiesObject s!"{path}.properties" (some properties)
  | none =>
    match mappings.lookup "_doc" with
    | some (.object docMapping) =>
      parsePropertiesObject s!"{path}._doc.properties" (docMapping.lookup "properties")
    | _ =>
      if mappings.isEmpty then .ok (.object [])
      else .error (parsingException s!"{request} `{path}` body is invalid")

def parseSettings (request path : String) : Option Value → Except OpenSearchError (List (String × Value))
  | none => .ok []
  | some settings => requireObject s!"{request} `{path}` must be an object" settings

def parseAliasEntries (request path : String) :
    SortedMap String Value → List (String × Value) → Except OpenSearchError (SortedMap String Value)
  | definitions, [] => .ok definitions
  | definitions, (aliasName, body) :: rest =>
    if isBlank aliasName then .error (parsingException s!"{request} `{path}` names must not be empty")
    else do
      let _ ← requireObject s!"{request} `{path}.{aliasName}` must be an object" body
      parseAliasEntries request path (definitions.upsert aliasName fun _ => body) rest

def parseAliases (request path : String) : Option Value → Except OpenSearchError (SortedMap String Value)
  | none => .ok .empty
  | some aliases => do
    let aliases ← requireObject s!"{request} `{path}` must be an object" aliases
    parseAliasEntries request path .empty aliases

def parseBody (fromStr : String → Except String Value) (reason body : String) :
    Except OpenSearchError (List (String × Value)) := do
  let value ← (fromStr body).mapError parsingException
  requireObject reason value

end Requests

section Templates

variable (unicode : Unicode) (fromStr : String → Except String Value)

def parseTemplateObject : Option Value → Except OpenSearchError (Option (List (String × Value)))
  | none => .ok none
  | some template => do
    let entries ← requireObject "_index_template `template` must be an object" template
    return some entries

/- The settings and the aliases are looked at before the mappings. -/
def parseTemplateMapping : Option (List (String × Value)) → Except OpenSearchError IndexMapping
  | none => .ok .default
  | some template => do
    let _ ← parseSettings "_index_template" "template.settings" (template.lookup "settings")
    let _ ← parseSettings "_index_template" "template.aliases" (template.lookup "aliases")
    match template.lookup "mappings" with
    | none => .ok .default
    | some mappings => do
      let properties ← mappingsProperties "_index_template" "template.mappings" mappings
      (fromPropertiesValue unicode properties).mapError mapperParsingException

def parseTemplateSettings (template : Option (List (String × Value))) :
    Except OpenSearchError (SortedMap String Value) := do
  let settings ← parseSettings "_index_template" "template.settings" (template.bind (·.lookup "settings"))
  return objectMap settings

def parseTemplateAliases (template : Option (List (String × Value))) :
    Except OpenSearchError (SortedMap String Value) :=
  parseAliases "_index_template" "template.aliases" (template.bind (·.lookup "aliases"))

def parseTemplate (template : Option Value) : Except OpenSearchError TemplateDefaults := do
  let template ← parseTemplateObject template
  let mapping ← parseTemplateMapping unicode template
  let settings ← parseTemplateSettings template
  let aliases ← parseTemplateAliases template
  return { mapping, settings, aliases }

def parseNames (field : String) (values : List Value) : Except OpenSearchError (List String) :=
  values.mapM fun value =>
    match value.asStr with
    | none => .error (parsingException s!"_index_template `{field}` entries must be strings")
    | some name =>
      if isBlank name then
        .error (parsingException s!"_index_template `{field}` entries must not be empty")
      else .ok name

def requireArray (field : String) (value : Value) : Except OpenSearchError (List Value) :=
  match value.asArray with
  | some values => .ok values
  | none => .error (parsingException s!"_index_template `{field}` must be an array")

def parseIndexPatterns : Option Value → Except OpenSearchError (List String)
  | none => .error (parsingException "_index_template request must contain `index_patterns`")
  | some value => do
    let patterns ← requireArray "index_patterns" value
    if patterns.isEmpty then
      throw (parsingException "_index_template `index_patterns` must not be empty")
    else parseNames "index_patterns" patterns

def parseComposedOf : Option Value → Except OpenSearchError (List String)
  | none => .ok []
  | some value => do
    let components ← requireArray "composed_of" value
    parseNames "composed_of" components

def Value.asI64 : Value → Option Int
  | .number text false =>
    match text.toList with
    | '-' :: digits => (parseUnsigned (2 ^ 63 + 1) digits).map fun n => -(n : Int)
    | digits => (parseUnsigned (2 ^ 63) digits).map Int.ofNat
  | _ => none

def parsePriority : Option Value → Except OpenSearchError Int
  | none => .ok 0
  | some value =>
    match value.asI64 with
    | some priority =>
      if priority < 0 then
        .error (parsingException "_index_template `priority` must be a non-negative integer")
      else .ok priority
    | none => .error (parsingException "_index_template `priority` must be a non-negative integer")

def parseIndexTemplateRequest (body : String) : Except OpenSearchError StoredIndexTemplate :=
  if isBlank body then .error (parsingException "_index_template request body must be an object")
  else do
    let object ← parseBody fromStr "_index_template request body must be an object" body
    let indexPatterns ← parseIndexPatterns (object.lookup "index_patterns")
    let composedOf ← parseComposedOf (object.lookup "composed_of")
    let priority ← parsePriority (object.lookup "priority")
    let template ← parseTemplate unicode (object.lookup "template")
    return { template with indexPatterns, composedOf, priority }

def parseComponentTemplateRequest (body : String) : Except OpenSearchError StoredComponentTemplate :=
  if isBlank body then .error (parsingException "_component_template request body must be an object")
  else do
    let object ← parseBody fromStr "_component_template request body must be an object" body
    parseTemplate unicode (object.lookup "template")

def templateNameForbiddenCharacters : List Char := ['"', '*', '/', '\\', '|', '?', '#', '>', '<', ',']

def validateTemplateName (name templateKind : String) : Except OpenSearchError Unit :=
  if isBlank name then .error (parsingException s!"{templateKind} template name must not be empty")
  else if name.toList.any isWhitespace ||
      name.toList.any (fun character => templateNameForbiddenCharacters.contains character) then
    .error (parsingException s!"{templateKind} template name contains invalid characters")
  else .ok ()

inductive TemplateCall where
  | putComponentTemplate (name body : String)
  | putIndexTemplate (name body : String)
  | deleteComponentTemplate (name : String)
  | deleteIndexTemplate (name : String)

def TemplateCall.serve (catalog : Catalog) : TemplateCall → Except OpenSearchError Catalog
  | .putComponentTemplate name body => do
    validateTemplateName name "component"
    let template ← parseComponentTemplateRequest unicode fromStr body
    return catalog.putComponentTemplate name template
  | .putIndexTemplate name body => do
    validateTemplateName name "index"
    let template ← parseIndexTemplateRequest unicode fromStr body
    match snapshotComponentTemplates catalog.componentTemplates template with
    | .error component =>
      throw ⟨400, "illegal_argument_exception", s!"component template [{component}] missing"⟩
    | .ok _ => return catalog.putIndexTemplate name template
  | .deleteComponentTemplate name => do
    validateTemplateName name "component"
    if (catalog.componentTemplates.get? name).isSome then return catalog.deleteComponentTemplate name
    else throw ⟨404, "component_template_missing_exception", s!"component_template [{name}] missing"⟩
  | .deleteIndexTemplate name => do
    validateTemplateName name "index"
    if (catalog.indexTemplates.get? name).isSome then return catalog.deleteIndexTemplate name
    else throw ⟨404, "index_template_missing_exception", s!"index_template [{name}] missing"⟩

def serveAll (catalog : Catalog) (calls : List TemplateCall) : Catalog :=
  calls.foldl (fun catalog call => (call.serve unicode fromStr catalog).toOption.getD catalog) catalog

end Templates

section Creation

variable (unicode : Unicode) (fromStr : String → Except String Value)

def emptyRequest : CreateIndexRequest unicode where
  mapping := ⟨.default, .object [], rfl⟩
  settings := .object []
  aliases := .empty

def createKeys : List String := ["settings", "mappings", "aliases"]

def parseCreateIndexRequest (body : String) : Except OpenSearchError (CreateIndexRequest unicode) :=
  if isBlank body then .ok (emptyRequest unicode)
  else do
    let object ← parseBody fromStr "index request body must be an object" body
    match object.find? fun entry => !createKeys.contains entry.1 with
    | some entry =>
      throw (parsingException s!"create index body contains unsupported field `{entry.1}`")
    | none => do
      let settings ← parseSettings "index request" "settings" (object.lookup "settings")
      let aliases ← parseAliases "index request" "aliases" (object.lookup "aliases")
      let properties ←
        match object.lookup "mappings" with
        | none => .ok (.object [])
        | some mappings => mappingsProperties "index request" "mappings" mappings
      let mapping ← (createMapping properties (.object settings)).mapError mapperParsingException
      return { mapping, settings := .object settings, aliases }

/- `create_index_handler`, the state it leaves behind. -/
def createIndexFrom (catalog : Catalog) (index body : String) : Except OpenSearchError Catalog :=
  if validateIndexName index then do
    let request ← parseCreateIndexRequest unicode fromStr body
    if catalog.indexExists index then throw (resourceAlreadyExists index)
    else return catalog.createIndex index (some request.mapping.mapping) request.settings request.aliases
  else .error (parsingException "invalid index name")

end Creation

section Parsed

variable (unicode : Unicode)

def Parsed (mapping : IndexMapping) : Prop :=
  ∃ properties, fromPropertiesValue unicode properties = .ok mapping

def AliasesValid (aliases : SortedMap String Value) : Prop :=
  ∀ name body, aliases.get? name = some body → isBlank name = false ∧ ∃ entries, body = .object entries

variable {unicode} {fromStr : String → Except String Value}

theorem Parsed.analysis {mapping : IndexMapping} (parsed : Parsed unicode mapping) :
    mapping.analysis = .default := by
  obtain ⟨properties, parsed⟩ := parsed
  rw [analysis_of_parse parsed]

theorem parsed_default : Parsed unicode .default := ⟨.object [], rfl⟩

theorem parseEntries_append (blank : MappingError) (parse : String → Value → MappingResult FieldMapping)
    (fields : SortedMap String FieldMapping) (first second : List (String × Value)) :
    parseEntries blank parse fields (first ++ second) =
      (parseEntries blank parse fields first).bind fun between => parseEntries blank parse between second := by
  induction first generalizing fields with
  | nil => rfl
  | cons entry rest ih =>
    obtain ⟨name, definition⟩ := entry
    rw [List.cons_append, parseEntries, parseEntries]
    split
    · rfl
    · cases parse name definition with
      | error error => rfl
      | ok parsed => exact ih _

theorem parseEntries_extend {blank : MappingError} {parse : String → Value → MappingResult FieldMapping}
    {entries : List (String × Value)} {fields added : SortedMap String FieldMapping}
    (looped : parseEntries blank parse fields entries = .ok added) (before : SortedMap String FieldMapping) :
    parseEntries blank parse (before.extend fields) entries = .ok (before.extend added) := by
  induction entries generalizing fields with
  | nil =>
    cases looped
    rfl
  | cons entry rest ih =>
    obtain ⟨name, definition⟩ := entry
    rw [parseEntries] at looped ⊢
    split at looped
    · cases looped
    · rename_i named
      rw [if_neg named]
      obtain ⟨parsed, here, looped⟩ := except_bind_ok.mp looped
      have moved : (before.extend fields).upsert name (fun _ => parsed) =
          before.extend (fields.upsert name fun _ => parsed) := by
        apply SortedMap.ext_get?
        intro k
        rw [SortedMap.get?_upsert, SortedMap.get?_extend, SortedMap.get?_extend, SortedMap.get?_upsert]
        split <;> rfl
      rw [here]
      exact (congrArg (parseEntries blank parse · rest) moved).trans (ih looped)

theorem Parsed.merge {target source : IndexMapping} (parsed : Parsed unicode target)
    (added : Parsed unicode source) : Parsed unicode (mergeMappingFields target source) := by
  have plain := added.analysis
  have plain' := parsed.analysis
  obtain ⟨properties, parsed⟩ := parsed
  obtain ⟨properties', added⟩ := added
  obtain ⟨entries, object, parsed⟩ := except_bind_ok.mp parsed
  obtain ⟨fields, looped, same⟩ := except_bind_ok.mp parsed
  obtain ⟨entries', object', added⟩ := except_bind_ok.mp added
  obtain ⟨fields', looped', same'⟩ := except_bind_ok.mp added
  cases same
  cases same'
  refine ⟨.object (entries ++ entries'), ?_⟩
  have both : parseEntries .emptyFieldName (parseFieldDefinition unicode) .empty (entries ++ entries') =
      .ok (fields.extend fields') := by
    rw [parseEntries_append, looped]
    exact parseEntries_extend looped' fields
  have merged : mergeMappingFields ⟨fields, .default⟩ ⟨fields', .default⟩ = ⟨fields.extend fields', .default⟩ := by
    unfold mergeMappingFields
    dsimp only
    rw [if_neg (not_not.mpr rfl)]
  rw [merged]
  exact except_bind_ok.mpr ⟨_, rfl, except_bind_ok.mpr ⟨_, both, rfl⟩⟩

theorem aliasesValid_empty : AliasesValid .empty := fun _ _ found => by cases found

theorem AliasesValid.extend {aliases other : SortedMap String Value} (valid : AliasesValid aliases)
    (added : AliasesValid other) : AliasesValid (aliases.extend other) := by
  intro name body found
  rw [SortedMap.get?_extend, Option.or_eq_some_iff] at found
  rcases found with new | ⟨-, old⟩
  · exact added name body new
  · exact valid name body old

theorem requireObject_ok {reason : String} {value : Value} {entries : List (String × Value)}
    (required : requireObject reason value = .ok entries) : value = .object entries := by
  unfold requireObject at required
  cases value <;> cases required
  rfl

theorem aliasesValid_of_parse {request path : String} {definitions aliases : SortedMap String Value}
    {entries : List (String × Value)} (valid : AliasesValid definitions)
    (parsed : parseAliasEntries request path definitions entries = .ok aliases) : AliasesValid aliases := by
  induction entries generalizing definitions with
  | nil =>
    cases parsed
    exact valid
  | cons entry rest ih =>
    obtain ⟨name, body⟩ := entry
    rw [parseAliasEntries] at parsed
    split at parsed
    · cases parsed
    · rename_i named
      obtain ⟨object, required, parsed⟩ := except_bind_ok.mp parsed
      refine ih ?_ parsed
      intro other definition found
      rw [SortedMap.get?_upsert] at found
      split at found
      · rename_i same
        cases found
        rw [same]
        exact ⟨Bool.not_eq_true _ ▸ named, object, requireObject_ok required⟩
      · exact valid other definition found

theorem parseAliasEntries_valid (request path : String) {entries : List (String × Value)}
    (valid : ∀ entry ∈ entries, isBlank entry.1 = false ∧ ∃ inner, entry.2 = .object inner)
    (definitions : SortedMap String Value) :
    parseAliasEntries request path definitions entries =
      .ok (entries.foldl (fun map entry => map.upsert entry.1 fun _ => entry.2) definitions) := by
  induction entries generalizing definitions with
  | nil => rfl
  | cons entry rest ih =>
    obtain ⟨name, body⟩ := entry
    obtain ⟨named, object, shape⟩ := valid _ List.mem_cons_self
    dsimp only at named shape
    rw [parseAliasEntries, named, shape]
    exact ih (fun entry member => valid entry (List.mem_cons_of_mem _ member)) _

/- What holds of a template: some properties declare its mapping, and its aliases are valid. -/
structure WellParsed (unicode : Unicode) (defaults : TemplateDefaults) : Prop where
  mapping : Parsed unicode defaults.mapping
  aliases : AliasesValid defaults.aliases

theorem wellParsed_default : WellParsed unicode .default := ⟨parsed_default, aliasesValid_empty⟩

theorem WellParsed.extend {defaults other : TemplateDefaults} (parsed : WellParsed unicode defaults)
    (added : WellParsed unicode other) : WellParsed unicode (defaults.extend other) :=
  ⟨parsed.mapping.merge added.mapping, parsed.aliases.extend added.aliases⟩

theorem wellParsed_of_parse {template : Option Value} {defaults : TemplateDefaults}
    (parsed : parseTemplate unicode template = .ok defaults) : WellParsed unicode defaults := by
  obtain ⟨object, -, parsed⟩ := except_bind_ok.mp parsed
  obtain ⟨mapping, mapped, parsed⟩ := except_bind_ok.mp parsed
  obtain ⟨settings, -, parsed⟩ := except_bind_ok.mp parsed
  obtain ⟨aliases, named, parsed⟩ := except_bind_ok.mp parsed
  cases parsed
  constructor
  · unfold parseTemplateMapping at mapped
    cases object with
    | none =>
      cases mapped
      exact parsed_default
    | some entries =>
      obtain ⟨_, -, mapped⟩ := except_bind_ok.mp mapped
      obtain ⟨_, -, mapped⟩ := except_bind_ok.mp mapped
      split at mapped
      · cases mapped
        exact parsed_default
      · obtain ⟨properties, -, mapped⟩ := except_bind_ok.mp mapped
        exact ⟨properties, except_mapError_ok.mp mapped⟩
  · unfold parseTemplateAliases parseAliases at named
    split at named
    · cases named
      exact aliasesValid_empty
    · obtain ⟨entries, -, named⟩ := except_bind_ok.mp named
      exact aliasesValid_of_parse aliasesValid_empty named

end Parsed

section Registry

variable {unicode : Unicode} {fromStr : String → Except String Value}

structure Registry (unicode : Unicode) (start catalog : Catalog) : Prop where
  indices : catalog.indices = start.indices
  aliases : catalog.aliases = start.aliases
  components : ∀ name template, catalog.componentTemplates.get? name = some template →
    WellParsed unicode template
  templates : ∀ name template, catalog.indexTemplates.get? name = some template →
    WellParsed unicode template.toTemplateDefaults

theorem wellParsed_compose {components : SortedMap String StoredComponentTemplate}
    (parsed : ∀ name template, components.get? name = some template → WellParsed unicode template)
    {names : List String} {defaults composed : TemplateDefaults} (started : WellParsed unicode defaults)
    (found : composeComponents components defaults names = .ok composed) : WellParsed unicode composed := by
  induction names generalizing defaults with
  | nil =>
    cases found
    exact started
  | cons name rest ih =>
    rw [composeComponents] at found
    split at found
    · cases found
    · rename_i component here
      exact ih (started.extend (parsed name component here)) found

theorem Registry.serve {start catalog next : Catalog} (registry : Registry unicode start catalog)
    {call : TemplateCall} (served : call.serve unicode fromStr catalog = .ok next) :
    Registry unicode start next := by
  cases call with
  | putComponentTemplate name body =>
    obtain ⟨_, -, served⟩ := except_bind_ok.mp served
    obtain ⟨template, parsed, served⟩ := except_bind_ok.mp served
    cases served
    refine ⟨registry.indices, registry.aliases, ?_, registry.templates⟩
    have well : WellParsed unicode template := by
      unfold parseComponentTemplateRequest at parsed
      split at parsed
      · cases parsed
      · obtain ⟨object, -, parsed⟩ := except_bind_ok.mp parsed
        exact wellParsed_of_parse parsed
    intro other stored found
    unfold Catalog.putComponentTemplate at found
    rw [SortedMap.get?_upsert] at found
    split at found
    · cases found
      exact well
    · exact registry.components other stored found
  | putIndexTemplate name body =>
    obtain ⟨_, -, served⟩ := except_bind_ok.mp served
    obtain ⟨template, parsed, served⟩ := except_bind_ok.mp served
    have well : WellParsed unicode template.toTemplateDefaults := by
      unfold parseIndexTemplateRequest at parsed
      split at parsed
      · cases parsed
      · obtain ⟨object, -, parsed⟩ := except_bind_ok.mp parsed
        obtain ⟨_, -, parsed⟩ := except_bind_ok.mp parsed
        obtain ⟨_, -, parsed⟩ := except_bind_ok.mp parsed
        obtain ⟨_, -, parsed⟩ := except_bind_ok.mp parsed
        obtain ⟨defaults, given, parsed⟩ := except_bind_ok.mp parsed
        cases parsed
        exact wellParsed_of_parse given
    split at served
    · cases served
    · rename_i snapshot composed
      cases served
      unfold Catalog.putIndexTemplate
      rw [composed]
      obtain ⟨defaults, joined, composed⟩ := except_bind_ok.mp composed
      cases composed
      refine ⟨registry.indices, registry.aliases, registry.components, ?_⟩
      intro other stored found
      rw [SortedMap.get?_upsert] at found
      split at found
      · cases found
        exact (wellParsed_compose registry.components wellParsed_default joined).extend well
      · exact registry.templates other stored found
  | deleteComponentTemplate name =>
    obtain ⟨_, -, served⟩ := except_bind_ok.mp served
    split at served
    · cases served
      refine ⟨registry.indices, registry.aliases, ?_, registry.templates⟩
      intro other stored found
      unfold Catalog.deleteComponentTemplate at found
      rw [SortedMap.get?_erase] at found
      split at found
      · cases found
      · exact registry.components other stored found
    · cases served
  | deleteIndexTemplate name =>
    obtain ⟨_, -, served⟩ := except_bind_ok.mp served
    split at served
    · cases served
      refine ⟨registry.indices, registry.aliases, registry.components, ?_⟩
      intro other stored found
      unfold Catalog.deleteIndexTemplate at found
      rw [SortedMap.get?_erase] at found
      split at found
      · cases found
      · exact registry.templates other stored found
    · cases served

theorem Registry.serveAll {start catalog : Catalog} (registry : Registry unicode start catalog)
    (calls : List TemplateCall) : Registry unicode start (serveAll unicode fromStr catalog calls) := by
  induction calls generalizing catalog with
  | nil => exact registry
  | cons call rest ih =>
    apply ih
    dsimp only
    cases served : call.serve unicode fromStr catalog with
    | error error => exact registry
    | ok next => exact registry.serve served

theorem Registry.sound {start catalog : Catalog} (registry : Registry unicode start catalog)
    (sound : start.Sound unicode) : catalog.Sound unicode := by
  have declared : ∀ {mapping}, Parsed unicode mapping → Declared unicode mapping := by
    rintro mapping ⟨properties, parsed⟩
    exact (declared_fromPropertiesValue parsed).1
  constructor
  · rw [registry.indices]
    exact sound.declared
  · exact fun name template found => declared (registry.components name template found).mapping
  · exact fun name template found => declared (registry.templates name template found).mapping
  · intro aliasName indices found index defined
    rw [registry.aliases] at found
    have there := sound.aliased aliasName indices found index defined
    unfold Catalog.indexExists at there ⊢
    rwa [registry.indices]

def Catalog.templateDefaults (catalog : Catalog) (index : String) : TemplateDefaults :=
  templateDefaultsForNewIndex (matchingIndexTemplates index catalog.indexTemplates)

theorem Registry.wellParsed {start catalog : Catalog} (registry : Registry unicode start catalog)
    (index : String) : WellParsed unicode (catalog.templateDefaults index) := by
  have folded (matching : List (String × StoredIndexTemplate))
      (parsed : ∀ entry ∈ matching, WellParsed unicode entry.2.toTemplateDefaults)
      (defaults : TemplateDefaults) (started : WellParsed unicode defaults) :
      WellParsed unicode (matching.foldl
        (fun defaults entry => defaults.extend entry.2.toTemplateDefaults) defaults) := by
    induction matching generalizing defaults with
    | nil => exact started
    | cons entry rest ih =>
      exact ih (fun other member => parsed other (List.mem_cons_of_mem _ member)) _
        (started.extend (parsed entry List.mem_cons_self))
  refine folded _ ?_ .default wellParsed_default
  intro entry member
  have listed := (List.perm_insertionSort _ _).mem_iff.mp member
  exact registry.templates entry.1 entry.2
    ((SortedMap.get?_eq_some_iff _ _ _).mpr (List.mem_filter.mp listed).1)

end Registry

section Routes

variable {unicode : Unicode} {fromStr : String → Except String Value}

/- An index is the same in both: its mapping with the analysis, its settings, its documents and its
aliases. -/
structure SameIndex (index : String) (first second : Catalog) : Prop where
  stored : first.indices.get? index = second.indices.get? index
  aliases : first.aliasDefinitionsForIndex index = second.aliasDefinitionsForIndex index

def explicitBody (properties : Value) (defaults : TemplateDefaults) : Value :=
  .object [("aliases", .object defaults.aliases.entries),
    ("mappings", .object [("properties", properties)]),
    ("settings", .object defaults.settings.entries)]

/-- The templates are what is asked for with an empty body, and what a write finds. -/
theorem createIndexFrom_empty {catalog : Catalog} {index : String} (valid : validateIndexName index = true)
    (free : catalog.indexExists index = false) :
    createIndexFrom unicode fromStr catalog index "" = .ok (catalog.ensureIndex index) := by
  have blank : isBlank "" = true := rfl
  unfold createIndexFrom parseCreateIndexRequest
  rw [if_pos valid, if_pos blank]
  change (if catalog.indexExists index then _ else _) = _
  rw [free]
  rfl

theorem merge_nothing (defaults : TemplateDefaults) :
    defaults.merge .default (.object []) .empty = defaults := by
  have mapping : mergeMappingFields defaults.mapping .default = defaults.mapping := by
    have plain : IndexMapping.default.analysis = .default := rfl
    unfold mergeMappingFields
    rw [if_neg (not_not.mpr plain)]
    rfl
  unfold TemplateDefaults.merge
  rw [mapping]
  rfl

theorem createMapping_eq {properties settings : Value} {mapping : IndexMapping}
    (parsed : fromPropertiesValue unicode properties = .ok mapping) :
    (@createMapping unicode properties settings).map AcceptedMapping.mapping =
      (fromIndexSettingsValue settings).map fun analysis => { mapping with analysis } := by
  unfold createMapping
  split
  · rename_i error failed
    rw [parsed] at failed
    cases failed
  · rename_i other found
    rw [parsed] at found
    cases found
    cases fromIndexSettingsValue settings <;> rfl

/-- The explicit body asks for the defaults, with the analysis of their settings. -/
theorem parseCreateIndexRequest_explicit {defaults : TemplateDefaults} (parsed : WellParsed unicode defaults)
    {properties : Value} (declares : fromPropertiesValue unicode properties = .ok defaults.mapping)
    {body : String} (nonblank : isBlank body = false)
    (decoded : fromStr body = .ok (explicitBody properties defaults)) :
    (parseCreateIndexRequest unicode fromStr body).map (fun request =>
        (request.mapping.mapping, request.settings, request.aliases)) =
      ((fromIndexSettingsValue (.object defaults.settings.entries)).map fun analysis =>
        ({ defaults.mapping with analysis }, .object defaults.settings.entries, defaults.aliases)).mapError
          mapperParsingException := by
  have aliases : parseAliasEntries "index request" "aliases" .empty defaults.aliases.entries =
      .ok defaults.aliases := by
    rw [parseAliasEntries_valid]
    · exact congrArg Except.ok (SortedMap.empty_extend defaults.aliases)
    · exact fun entry member => parsed.aliases entry.1 entry.2 ((SortedMap.get?_eq_some_iff _ _ _).mpr member)
  have object : ∃ entries, properties = .object entries := by
    obtain ⟨entries, object, -⟩ := except_bind_ok.mp declares
    cases properties <;> cases object
    exact ⟨_, rfl⟩
  obtain ⟨entries, rfl⟩ := object
  have mapping := @createMapping_eq unicode _ (.object defaults.settings.entries) _ declares
  unfold parseCreateIndexRequest parseBody
  rw [nonblank, decoded]
  change Except.map _ ((parseAliasEntries "index request" "aliases" .empty defaults.aliases.entries).bind
    fun aliases => ((@createMapping unicode (.object entries) (.object defaults.settings.entries)).mapError
      mapperParsingException).bind fun mapping => .ok (CreateIndexRequest.mk mapping _ aliases)) = _
  rw [aliases]
  cases made : @createMapping unicode (.object entries) (.object defaults.settings.entries) with
  | error error =>
    rw [made] at mapping
    cases read : fromIndexSettingsValue (.object defaults.settings.entries) with
    | error other =>
      rw [read] at mapping
      cases mapping
      rfl
    | ok analysis =>
      rw [read] at mapping
      cases mapping
  | ok accepted =>
    rw [made] at mapping
    cases read : fromIndexSettingsValue (.object defaults.settings.entries) with
    | error other =>
      rw [read] at mapping
      cases mapping
    | ok analysis =>
      rw [read] at mapping
      have same : accepted.mapping = { defaults.mapping with analysis } := Except.ok.inj mapping
      change Except.ok (accepted.mapping, _, _) = Except.ok _
      rw [same]

theorem SameIndex.indexDocument {index : String} {first second : Catalog} (same : SameIndex index first second)
    (there : first.indexExists index = true) (id : String) (source : Value) :
    SameIndex index (first.indexDocument index id source) (second.indexDocument index id source) := by
  have there' : second.indexExists index = true := by
    unfold Catalog.indexExists at there ⊢
    rw [← same.stored, there]
  have aliases : ∀ (catalog : Catalog) (change : StoredIndex → StoredIndex),
      (catalog.modify index change).aliases = catalog.aliases := by
    intro catalog change
    unfold Catalog.modify
    split <;> rfl
  unfold Catalog.indexDocument
  rw [Catalog.ensureIndex_of_exists there, Catalog.ensureIndex_of_exists there']
  constructor
  · rw [Catalog.get?_modify, Catalog.get?_modify, same.stored]
  · rw [Catalog.aliasDefinitions_congr (aliases first _), Catalog.aliasDefinitions_congr (aliases second _),
      same.aliases]

variable (unicode fromStr) in
/- The index is made from the templates with an empty body, or by a write, and without templates from
the body: the same, and the same after a document. -/
def SameRoutes (start registered : Catalog) (index body : String) : Prop :=
  ∃ implicit explicit, createIndexFrom unicode fromStr registered index "" = .ok implicit ∧
    implicit = registered.ensureIndex index ∧
    createIndexFrom unicode fromStr start index body = .ok explicit ∧ SameIndex index implicit explicit ∧
    ∀ id source, SameIndex index (registered.indexDocument index id source)
      (explicit.indexDocument index id source)

theorem createIndexFrom_explicit {start : Catalog} (sound : start.Sound unicode)
    (bare : start.indexTemplates = .empty) {index body : String} (valid : validateIndexName index = true)
    (free : start.indexExists index = false) {defaults : TemplateDefaults}
    (parsed : WellParsed unicode defaults) {properties : Value}
    (declares : fromPropertiesValue unicode properties = .ok defaults.mapping)
    (nonblank : isBlank body = false) (decoded : fromStr body = .ok (explicitBody properties defaults)) :
    (∀ error, fromIndexSettingsValue (.object defaults.settings.entries) = .error error →
      createIndexFrom unicode fromStr start index body = .error (mapperParsingException error)) ∧
    ∀ analysis, fromIndexSettingsValue (.object defaults.settings.entries) = .ok analysis →
      ∃ explicit, createIndexFrom unicode fromStr start index body = .ok explicit ∧
        explicit.indices.get? index =
          some (.new { defaults.mapping with analysis } defaults.settings) ∧
        explicit.aliasDefinitionsForIndex index = defaults.aliases := by
  have asked := parseCreateIndexRequest_explicit parsed declares nonblank decoded
  constructor
  · intro error failed
    rw [failed] at asked
    cases request : parseCreateIndexRequest unicode fromStr body with
    | error other =>
      rw [request] at asked
      cases asked
      unfold createIndexFrom
      rw [if_pos valid, request]
      rfl
    | ok request' =>
      rw [request] at asked
      cases asked
  · intro analysis read
    rw [read] at asked
    cases request : parseCreateIndexRequest unicode fromStr body with
    | error other =>
      rw [request] at asked
      cases asked
    | ok asks =>
      rw [request] at asked
      have fields := Except.ok.inj asked
      obtain ⟨accepted, settings, aliases⟩ := asks
      dsimp only at fields
      rw [Prod.mk.injEq, Prod.mk.injEq] at fields
      obtain ⟨mapping, rfl, rfl⟩ := fields
      have made := sound.get?_createIndexIfMissing free accepted.mapping
        (.object defaults.settings.entries) defaults.aliases
      have none : templateDefaultsForNewIndex (matchingIndexTemplates index start.indexTemplates) =
          .default := by rw [bare]; rfl
      rw [none, merge_default, mapping] at made
      refine ⟨_, ?_, made⟩
      unfold createIndexFrom
      rw [if_pos valid, request]
      change (if start.indexExists index then _ else _) = _
      rw [free]
      rw [← mapping]
      rfl

/-- Templates and an explicit body of what they give make the same index exactly when the settings that
they give declare no analysis: the fields of a template are parsed without it. -/
theorem templates_equivalent (events : List (CatalogEvent unicode))
    (bare : (runEvents CatalogEvent.step events .empty).componentTemplates = .empty ∧
      (runEvents CatalogEvent.step events .empty).indexTemplates = .empty)
    (calls : List TemplateCall) (index : String) (valid : validateIndexName index = true)
    (free : (runEvents CatalogEvent.step events .empty).indexExists index = false) :
    let start := runEvents CatalogEvent.step events .empty
    let registered := serveAll unicode fromStr start calls
    let defaults := registered.templateDefaults index
    (∃ properties, fromPropertiesValue unicode properties = .ok defaults.mapping) ∧
      ∀ properties body, fromPropertiesValue unicode properties = .ok defaults.mapping →
        isBlank body = false → fromStr body = .ok (explicitBody properties defaults) →
        (SameRoutes unicode fromStr start registered index body ↔
          fromIndexSettingsValue (.object defaults.settings.entries) = .ok .default) := by
  intro start registered defaults
  have sound : start.Sound unicode := Catalog.run_sound events
  have began : Registry unicode start start := by
    refine ⟨rfl, rfl, ?_, ?_⟩
    · intro name template found
      rw [bare.1] at found
      cases found
    · intro name template found
      rw [bare.2] at found
      cases found
  have registry : Registry unicode start registered := began.serveAll calls
  have parsed : WellParsed unicode defaults := registry.wellParsed index
  refine ⟨parsed.mapping, ?_⟩
  intro properties body declares nonblank decoded
  have free' : registered.indexExists index = false := by
    unfold Catalog.indexExists
    rw [registry.indices]
    exact free
  have implicit := (registry.sound sound).get?_createIndexIfMissing free' .default (.object []) .empty
  change let created := defaults.merge .default (.object []) .empty; _ ∧ _ at implicit
  rw [merge_nothing] at implicit
  obtain ⟨stored, aliased⟩ := implicit
  obtain ⟨refused, made⟩ := createIndexFrom_explicit sound bare.2 valid free parsed declares nonblank decoded
  have plain := parsed.mapping.analysis
  constructor
  · rintro ⟨first, second, asked, rfl, asked', same, -⟩
    cases read : fromIndexSettingsValue (.object defaults.settings.entries) with
    | error error =>
      rw [refused error read] at asked'
      cases asked'
    | ok analysis =>
      obtain ⟨explicit, asked'', stored', -⟩ := made analysis read
      rw [asked'] at asked''
      cases asked''
      have equal := same.stored
      rw [stored'] at equal
      have mappings := congrArg StoredIndex.mapping (Option.some.inj (stored.symm.trans equal))
      have analyses : defaults.mapping.analysis = analysis := congrArg IndexMapping.analysis mappings
      rw [← analyses, plain]
  · intro read
    obtain ⟨explicit, asked, stored', aliased'⟩ := made .default read
    have same : SameIndex index (registered.ensureIndex index) explicit := by
      have whole : { defaults.mapping with analysis := AnalysisSettings.default } = defaults.mapping := by
        rw [← plain]
      refine ⟨?_, aliased.trans aliased'.symm⟩
      rw [stored', whole]
      exact stored
    refine ⟨_, explicit, createIndexFrom_empty valid free', rfl, asked, same, ?_⟩
    intro id source
    have there : (registered.ensureIndex index).indexExists index = true := by
      unfold Catalog.indexExists
      rw [same.stored, stored']
      rfl
    have written := same.indexDocument there id source
    have twice : (registered.ensureIndex index).indexDocument index id source =
        registered.indexDocument index id source := by
      unfold Catalog.indexDocument
      rw [Catalog.ensureIndex_of_exists there]
    rw [twice] at written
    exact written

def lowerNames : Unicode := { Unicode.ascii with toLowercase := id }

def nameProperties : Value :=
  .object [("NOM", .object [("analyzer", .string "autocomplete"), ("type", .string "text")])]

def shardSettings : Value := .object [("number_of_shards", .number "1" false)]

def prefixSettings : Value := .object [("analysis", .object
  [("analyzer", .object [("autocomplete", .object [("filter", .array [.string "lowercase"]),
      ("tokenizer", .string "prefixes")])]),
    ("tokenizer", .object [("prefixes", .object [("max_gram", .number "4" false),
      ("min_gram", .number "2" false), ("type", .string "edge_ngram")])])])]

def nameTemplate (settings : Value) : Value := .object
  [("index_patterns", .array [.string "dec*"]),
    ("template", .object [("aliases", .object [("morts", .object [])]),
      ("mappings", .object [("properties", nameProperties)]), ("settings", settings)])]

def nameCalls : List TemplateCall := [.putIndexTemplate "names" "template"]

def readTemplate (settings : Value) (text : String) : Except String Value :=
  if text = "template" then .ok (nameTemplate settings) else .error "expected value at line 1 column 1"

def nameDefaults (settings : Value) : TemplateDefaults :=
  (serveAll lowerNames (readTemplate settings) .empty nameCalls).templateDefaults "deces"

def readText (settings : Value) (text : String) : Except String Value :=
  if text = "body" then .ok (explicitBody nameProperties (nameDefaults settings))
  else readTemplate settings text

theorem templates_equivalent_names : SameRoutes lowerNames (readText shardSettings) .empty
    (serveAll lowerNames (readText shardSettings) .empty nameCalls) "deces" "body" :=
  ((templates_equivalent [] ⟨rfl, rfl⟩ nameCalls "deces" (by decide +kernel) rfl).2
    nameProperties "body" rfl (by decide +kernel) rfl).mpr rfl

/-- A template whose settings declare an analyzer gives an index that does not know it. -/
theorem not_templates_equivalent :
    fromPropertiesValue lowerNames nameProperties =
        .ok ((serveAll lowerNames (readText prefixSettings) .empty nameCalls).templateDefaults "deces").mapping ∧
      readText prefixSettings "body" = .ok (explicitBody nameProperties
        ((serveAll lowerNames (readText prefixSettings) .empty nameCalls).templateDefaults "deces")) ∧
      ¬ SameRoutes lowerNames (readText prefixSettings) .empty
        (serveAll lowerNames (readText prefixSettings) .empty nameCalls) "deces" "body" := by
  refine ⟨rfl, rfl, ?_⟩
  rintro ⟨first, second, asked, -, asked', same, -⟩
  have implicit : first.indices.get? "deces" >>= (fun data =>
      data.mapping.analysis.resolveAnalyzer lowerNames "autocomplete") = none := by
    cases asked
    rfl
  have explicit : second.indices.get? "deces" >>= (fun data =>
      data.mapping.analysis.resolveAnalyzer lowerNames "autocomplete") = some (.edgeNgram 2 4 true false) := by
    cases asked'
    decide +kernel
  rw [same.stored, explicit] at implicit
  cases implicit

end Routes

end Surch.Api
