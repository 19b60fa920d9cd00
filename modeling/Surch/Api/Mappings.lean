import Surch.Api.InMemoryIndex
import Surch.Lib.Decimal

/-! The mapping of an index as JSON: how it is printed, and how a definition is parsed. -/
namespace Surch.Api
open Surch.Lib Surch.Index Surch.Postings

section Names

def fieldTypeName : FieldType → String
  | .text => "text"
  | .keyword => "keyword"
  | .integer => "integer"
  | .long => "long"
  | .short => "short"
  | .byte => "byte"
  | .float => "float"
  | .double => "double"
  | .boolean => "boolean"
  | .date => "date"
  | .geoPoint => "geo_point"
  | .object => "object"
  | .array => "array"
  | .unknown => "unknown"

/- `FieldType::from_name`; `unknown` is the name of no type. -/
def fieldTypeFromName : String → Option FieldType
  | "text" => some .text
  | "keyword" => some .keyword
  | "integer" => some .integer
  | "int" => some .integer
  | "long" => some .long
  | "short" => some .short
  | "byte" => some .byte
  | "float" => some .float
  | "double" => some .double
  | "boolean" => some .boolean
  | "bool" => some .boolean
  | "date" => some .date
  | "geo_point" => some .geoPoint
  | "object" => some .object
  | "array" => some .array
  | _ => none

def analyzerText : AnalyzerName → String
  | .standard => "standard"
  | .simple => "simple"
  | .stop => "stop"
  | .keyword => "keyword"
  | .whitespace => "whitespace"
  | .norm => "norm"

def defaultDateFormat : String := "yyyyMMdd"

end Names

section Values

namespace Value

def asObject : Value → Option (List (String × Value))
  | .object entries => some entries
  | _ => none

def asStr : Value → Option String
  | .string value => some value
  | _ => none

def asBool : Value → Option Bool
  | .bool value => some value
  | _ => none

def asArray : Value → Option (List Value)
  | .array values => some values
  | _ => none

/- A float is no `u64`, whatever its value. -/
def asU64 : Value → Option Nat
  | .number text false => parseUnsigned (2 ^ 64) text.toList
  | _ => none

def ofNat (n : Nat) : Value := .number (String.ofList (zeroPadded 0 n)) false

theorem asU64_ofNat {n : Nat} (small : n < 2 ^ 64) : (ofNat n).asU64 = some n := by
  rw [ofNat, asU64, String.toList_ofList]
  exact parseUnsigned_zeroPadded small

end Value

def insertSome (key : String) (value : Option Value) (object : SortedMap String Value) :
    SortedMap String Value :=
  match value with
  | none => object
  | some value => object.upsert key fun _ => value

@[simp] theorem get?_insertSome (key : String) (value : Option Value)
    (object : SortedMap String Value) (x : String) :
    (insertSome key value object).get? x =
      if x = key then value.or (object.get? key) else object.get? x := by
  cases value with
  | none =>
    rw [insertSome, Option.none_or]
    split
    · rename_i same
      rw [same]
    · rfl
  | some value => simp [insertSome]

end Values

section Printing

def printedFormat (fieldType : FieldType) (dateFormat : Option String) : Option String :=
  if fieldType = .date then some (dateFormat.getD defaultDateFormat) else none

def prefixesValue (prefixes : FieldPrefixes) : Value :=
  .object ((SortedMap.singleton "min_chars" (Value.ofNat prefixes.minChars)).upsert "max_chars"
    fun _ => Value.ofNat prefixes.maxChars).entries

/- A builtin analyzer goes before a custom one. -/
def analyzerValue (builtin : Option AnalyzerName) (custom : Option String) : Option Value :=
  match builtin with
  | some analyzer => some (.string (analyzerText analyzer))
  | none => custom.map Value.string

def attributes (mapping : FieldMapping) (fields : Option Value) : SortedMap String Value :=
  let object := SortedMap.singleton "type" (.string (fieldTypeName mapping.fieldType))
  let object := insertSome "analyzer"
    (analyzerValue mapping.analyzerName mapping.customAnalyzer) object
  let object := insertSome "search_analyzer"
    (analyzerValue mapping.searchAnalyzer mapping.customSearchAnalyzer) object
  let object := insertSome "norms" (mapping.norms.map Value.bool) object
  let object := insertSome "normalizer"
    (mapping.normalizer.map fun name => .string (analyzerText name)) object
  let object := insertSome "index_prefixes" (mapping.indexPrefixes.map prefixesValue) object
  let object := insertSome "format"
    ((printedFormat mapping.fieldType mapping.dateFormat).map Value.string) object
  insertSome "fields" fields object

mutual

def fieldValue : FieldMapping → Value
  | mapping@⟨_, _, _, _, _, _, _, _, _, fields⟩ =>
    .object (attributes mapping
      (if fields.isEmpty then none else some (.object (fieldValues fields)))).entries

def fieldValues : List (String × FieldMapping) → List (String × Value)
  | [] => []
  | (name, mapping) :: rest => (name, fieldValue mapping) :: fieldValues rest

end

theorem fieldValues_eq_map (fields : List (String × FieldMapping)) :
    fieldValues fields = fields.map fun entry => (entry.1, fieldValue entry.2) := by
  induction fields with
  | nil => rfl
  | cons entry rest ih => rw [fieldValues, ih, List.map_cons]

def mappingProperties (mapping : IndexMapping) : Value := .object (fieldValues mapping.fields.entries)

def mappingValue (mapping : IndexMapping) : Value :=
  .object [("properties", mappingProperties mapping)]

end Printing

section Parsing

inductive MappingError where
  | propertiesNotObject
  | emptyFieldName
  | fieldDefinitionNotObject (field : String)
  | unsupportedFieldType (field fieldType : String)
  | analyzerNotString (field : String)
  | analyzerNotSupported (field fieldType : String)
  | normsNotBoolean (field : String)
  | normalizerNotString (field : String)
  | unsupportedNormalizer (field normalizer : String)
  | dateFormatNotString (field : String)
  | dateFormatNotSupported (field fieldType : String)
  | settingsNotObject
  | analysisNotObject
  | analysisSectionNotObject (part : String)
  | analysisEntryNotObject (part name : String)
  | analysisFilterNotArray (part name : String)
  | edgeNgramMissingBound (name bound : String)
  | indexPrefixesNotObject (field : String)
  | indexPrefixesUnknownKey (field key : String)
  | indexPrefixesBoundNotUnsigned (field bound : String)
  | indexPrefixesBoundsInvalid (field : String) (minChars maxChars : Nat)
  | indexPrefixesNotSupported (field fieldType : String)
  | subfieldsNotObject (field : String)
  | emptySubfieldName (field : String)
  | nestedSubfieldsNotSupported (field : String)
deriving DecidableEq

def MappingError.message : MappingError → String
  | .propertiesNotObject => "mapping properties must be an object"
  | .emptyFieldName => "mapping field name cannot be empty"
  | .fieldDefinitionNotObject field => s!"field `{field}` definition must be an object"
  | .unsupportedFieldType field fieldType => s!"field `{field}` has unsupported type `{fieldType}`"
  | .analyzerNotString field => s!"field `{field}` analyzer must be a string"
  | .analyzerNotSupported field _ => s!"field `{field}` analyzer is only supported on text fields"
  | .normsNotBoolean field => s!"field `{field}` norms must be a boolean"
  | .normalizerNotString field => s!"field `{field}` normalizer must be a string"
  | .unsupportedNormalizer field normalizer =>
    s!"field `{field}` has unsupported normalizer `{normalizer}`"
  | .dateFormatNotString field => s!"field `{field}` format must be a string"
  | .dateFormatNotSupported field fieldType =>
    s!"field `{field}` format is only supported on date fields (got `{fieldType}`)"
  | .settingsNotObject => "index settings must be an object"
  | .analysisNotObject => "settings.analysis must be an object"
  | .analysisSectionNotObject part => s!"settings.analysis.{part} must be an object"
  | .analysisEntryNotObject part name => s!"settings.analysis.{part}.{name} must be an object"
  | .analysisFilterNotArray part name => s!"settings.analysis.{part}.{name}.filter must be an array"
  | .edgeNgramMissingBound name bound =>
    s!"edge_ngram tokenizer `{name}` missing required field `{bound}`"
  | .indexPrefixesNotObject field => s!"field `{field}` index_prefixes must be an object"
  | .indexPrefixesUnknownKey field key => s!"field `{field}` index_prefixes has unknown key `{key}`"
  | .indexPrefixesBoundNotUnsigned field bound =>
    s!"field `{field}` index_prefixes.{bound} must be a non-negative integer"
  | .indexPrefixesBoundsInvalid field minChars maxChars =>
    s!"field `{field}` index_prefixes bounds invalid (min_chars={minChars}, max_chars={maxChars}); " ++
      "expected 2 <= min_chars < max_chars <= 20"
  | .indexPrefixesNotSupported field fieldType =>
    s!"field `{field}` index_prefixes is only supported on text fields (got `{fieldType}`)"
  | .subfieldsNotObject field => s!"field `{field}` fields must be an object"
  | .emptySubfieldName field => s!"field `{field}` declares an empty sub-field name"
  | .nestedSubfieldsNotSupported field =>
    s!"field `{field}` nests `fields` more than one level deep, which is not allowed"

abbrev MappingResult (α : Type) := Except MappingError α

def orError {α : Type} (error : MappingError) : Option α → MappingResult α
  | some value => .ok value
  | none => .error error

def minPrefixChars : Nat := 2
def maxPrefixChars : Nat := 5
def maxPrefixBound : Nat := 20

/- One bound of `index_prefixes`, with its default. -/
def parsePrefixBound (field bound : String) (object : List (String × Value)) (absent : Nat) :
    MappingResult Nat :=
  match object.lookup bound with
  | some value => orError (.indexPrefixesBoundNotUnsigned field bound) value.asU64
  | none => .ok absent

def parseIndexPrefixes (field : String) (value : Value) : MappingResult FieldPrefixes := do
  let object ← orError (.indexPrefixesNotObject field) value.asObject
  match object.find? fun entry => entry.1 ≠ "min_chars" ∧ entry.1 ≠ "max_chars" with
  | some entry => throw (.indexPrefixesUnknownKey field entry.1)
  | none => do
    let minChars ← parsePrefixBound field "min_chars" object minPrefixChars
    let maxChars ← parsePrefixBound field "max_chars" object maxPrefixChars
    if minChars < minPrefixChars ∨ maxChars > maxPrefixBound ∨ minChars ≥ maxChars then
      throw (.indexPrefixesBoundsInvalid field minChars maxChars)
    else return { minChars, maxChars }

variable (unicode : Unicode)

/- A name that is not builtin is kept as it is. -/
def parseAnalyzer (field : String) : Option Value → MappingResult (Option AnalyzerName × Option String)
  | none => .ok (none, none)
  | some value => do
    let name ← orError (.analyzerNotString field) value.asStr
    match AnalyzerName.fromName unicode name with
    | some builtin => return (some builtin, none)
    | none => return (none, some name)

def parseNorms (field : String) : Option Value → MappingResult (Option Bool)
  | none => .ok none
  | some value => do
    let norms ← orError (.normsNotBoolean field) value.asBool
    return some norms

def parseNormalizer (field : String) : Option Value → MappingResult (Option AnalyzerName)
  | none => .ok none
  | some value => do
    let name ← orError (.normalizerNotString field) value.asStr
    let builtin ← orError (.unsupportedNormalizer field name) (AnalyzerName.fromName unicode name)
    return some builtin

def parsePrefixes (field : String) (fieldType : FieldType) :
    Option Value → MappingResult (Option FieldPrefixes)
  | none => .ok none
  | some value => do
    let prefixes ← parseIndexPrefixes field value
    if fieldType ≠ .text then throw (.indexPrefixesNotSupported field (fieldTypeName fieldType))
    else return some prefixes

def parseDateFormat (field : String) (fieldType : FieldType) :
    Option Value → MappingResult (Option String)
  | none => .ok none
  | some value => do
    let format ← orError (.dateFormatNotString field) value.asStr
    if fieldType ≠ .date then throw (.dateFormatNotSupported field (fieldTypeName fieldType))
    else return some format

def parseType (field : String) (object : List (String × Value)) : MappingResult FieldType :=
  let name := ((object.lookup "type").bind Value.asStr).getD "text"
  orError (.unsupportedFieldType field name) (fieldTypeFromName name)

def parseFieldsBlock (parseFields : Value → MappingResult (List (String × FieldMapping))) :
    Option Value → MappingResult (List (String × FieldMapping))
  | none => .ok []
  | some value => parseFields value

/- A field definition whose sub-fields are parsed by `parseFields`. -/
def parseDefinition (parseFields : Value → MappingResult (List (String × FieldMapping)))
    (field : String) (definition : Value) : MappingResult FieldMapping := do
  let object ← orError (.fieldDefinitionNotObject field) definition.asObject
  let fieldType ← parseType field object
  let (analyzer, customAnalyzer) ← parseAnalyzer unicode field (object.lookup "analyzer")
  let (searchAnalyzer, customSearchAnalyzer) ←
    parseAnalyzer unicode field (object.lookup "search_analyzer")
  let norms ← parseNorms field (object.lookup "norms")
  if fieldType ≠ .text ∧ (analyzer.isSome ∨ customAnalyzer.isSome ∨ searchAnalyzer.isSome ∨
      customSearchAnalyzer.isSome) then
    throw (.analyzerNotSupported field (fieldTypeName fieldType))
  else do
    let normalizer ← parseNormalizer unicode field (object.lookup "normalizer")
    let indexPrefixes ← parsePrefixes field fieldType (object.lookup "index_prefixes")
    let dateFormat ← parseDateFormat field fieldType (object.lookup "format")
    let fields ← parseFieldsBlock parseFields (object.lookup "fields")
    return {
      fieldType
      analyzerName := analyzer
      customAnalyzer
      searchAnalyzer
      customSearchAnalyzer
      norms
      normalizer
      indexPrefixes
      dateFormat
      fields }

def refuseFields (field : String) (_ : Value) : MappingResult (List (String × FieldMapping)) :=
  .error (.nestedSubfieldsNotSupported field)

def parseEntries (blank : MappingError) (parse : String → Value → MappingResult FieldMapping) :
    SortedMap String FieldMapping → List (String × Value) →
      MappingResult (SortedMap String FieldMapping)
  | fields, [] => .ok fields
  | fields, (name, definition) :: rest =>
    if isBlank name then .error blank
    else do
      let parsed ← parse name definition
      parseEntries blank parse (fields.upsert name fun _ => parsed) rest

def parseSubfield (field subName : String) (definition : Value) : MappingResult FieldMapping :=
  let qualified := subfieldPath field subName
  parseDefinition unicode (refuseFields qualified) qualified definition

def parseSubfields (field : String) (value : Value) :
    MappingResult (List (String × FieldMapping)) := do
  let entries ← orError (.subfieldsNotObject field) value.asObject
  let fields ← parseEntries (.emptySubfieldName field) (parseSubfield unicode field) .empty entries
  return fields.entries

def parseFieldDefinition (field : String) (definition : Value) : MappingResult FieldMapping :=
  parseDefinition unicode (parseSubfields unicode field) field definition

def fromPropertiesValue (value : Value) : MappingResult IndexMapping := do
  let properties ← orError .propertiesNotObject value.asObject
  let fields ← parseEntries .emptyFieldName (parseFieldDefinition unicode) .empty properties
  return { fields, analysis := .default }

example : (fromPropertiesValue .ascii (.object [("NOM", .object [("type", .string "date")])])).toOption.map
    (fun mapping => mapping.fields.entries.map fun entry => (entry.1, entry.2.fieldType)) =
      some [("NOM", .date)] := by
  decide +kernel

end Parsing

end Surch.Api
