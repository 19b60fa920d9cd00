import Surch.Api.Mappings
import Surch.Lib.Reader
import Surch.Lib.Runs

/-! A printed mapping can be parsed again, and the result is the mapping that was printed. -/
namespace Surch.Api
open Surch.Lib Surch.Index Surch.Postings

section Fields

variable {unicode : Unicode} {mapping : FieldMapping}

/- An analyzer is builtin or custom; a custom name is not that of a builtin one. -/
structure Exclusive (unicode : Unicode) (builtin : Option AnalyzerName) (custom : Option String) :
    Prop where
  one : builtin.isSome → custom = none
  foreign : ∀ name ∈ custom, AnalyzerName.fromName unicode name = none

structure Definable (unicode : Unicode) (mapping : FieldMapping) : Prop where
  analyzer : Exclusive unicode mapping.analyzerName mapping.customAnalyzer
  search : Exclusive unicode mapping.searchAnalyzer mapping.customSearchAnalyzer
  only_text : mapping.fieldType ≠ .text → mapping.analyzerName = none ∧
    mapping.customAnalyzer = none ∧ mapping.searchAnalyzer = none ∧
      mapping.customSearchAnalyzer = none ∧ mapping.indexPrefixes = none
  prefixes : ∀ bounds ∈ mapping.indexPrefixes, minPrefixChars ≤ bounds.minChars ∧
    bounds.maxChars ≤ maxPrefixBound ∧ bounds.minChars < bounds.maxChars
  only_date : mapping.fieldType ≠ .date → mapping.dateFormat = none

structure Subfield (unicode : Unicode) (entry : String × FieldMapping) : Prop where
  named : isBlank entry.1 = false
  known : entry.2.fieldType ≠ .unknown
  definable : Definable unicode entry.2
  leaf : entry.2.fields = []

structure Mapped (unicode : Unicode) (mapping : FieldMapping) : Prop where
  definable : Definable unicode mapping
  sorted : (mapping.fields.map Prod.fst).Pairwise (· < ·)
  subfields : ∀ entry ∈ mapping.fields, Subfield unicode entry

mutual

def resolved : FieldMapping → FieldMapping
  | mapping@⟨_, _, _, _, _, _, _, _, _, fields⟩ => { mapping with
      dateFormat := printedFormat mapping.fieldType mapping.dateFormat
      fields := resolvedFields fields }

def resolvedFields : List (String × FieldMapping) → List (String × FieldMapping)
  | [] => []
  | (name, mapping) :: rest => (name, resolved mapping) :: resolvedFields rest

end

theorem resolvedFields_eq_map (fields : List (String × FieldMapping)) :
    resolvedFields fields = fields.map fun entry => (entry.1, resolved entry.2) := by
  induction fields with
  | nil => rfl
  | cons entry rest ih => rw [resolvedFields, ih, List.map_cons]

theorem fieldValue_eq (mapping : FieldMapping) : fieldValue mapping = .object (attributes mapping
    (if mapping.fields.isEmpty then none
      else some (.object (fieldValues mapping.fields)))).entries := by
  cases mapping
  rfl

theorem resolved_eq (mapping : FieldMapping) : resolved mapping = { mapping with
    dateFormat := printedFormat mapping.fieldType mapping.dateFormat
    fields := resolvedFields mapping.fields } := by
  cases mapping
  rfl

end Fields

section Definitions

variable {unicode : Unicode} {mapping : FieldMapping}
  {parseFields : Value → MappingResult (List (String × FieldMapping))} {field : String}

theorem orError_eq_ok {α : Type} {error : MappingError} {found : Option α} {value : α} :
    orError error found = .ok value ↔ found = some value := by
  cases found with
  | none => simp [orError]
  | some other => simp [orError]

theorem parseIndexPrefixes_eq_ok {value : Value} {bounds : FieldPrefixes} :
    parseIndexPrefixes field value = .ok bounds ↔ ∃ object, value.asObject = some object ∧
      (object.find? fun entry => entry.1 ≠ "min_chars" ∧ entry.1 ≠ "max_chars") = none ∧
      parsePrefixBound field "min_chars" object minPrefixChars = .ok bounds.minChars ∧
      parsePrefixBound field "max_chars" object maxPrefixChars = .ok bounds.maxChars ∧
      ¬ (bounds.minChars < minPrefixChars ∨ bounds.maxChars > maxPrefixBound ∨
        bounds.minChars ≥ bounds.maxChars) := by
  unfold parseIndexPrefixes
  constructor
  · intro parsed
    obtain ⟨object, found, parsed⟩ := except_bind_ok.mp parsed
    split at parsed
    · cases parsed
    · rename_i only
      obtain ⟨minChars, lower, parsed⟩ := except_bind_ok.mp parsed
      obtain ⟨maxChars, upper, parsed⟩ := except_bind_ok.mp parsed
      split at parsed
      · cases parsed
      · rename_i fits
        cases parsed
        exact ⟨object, orError_eq_ok.mp found, only, lower, upper, fits⟩
  · rintro ⟨object, found, only, lower, upper, fits⟩
    apply except_bind_ok.mpr ⟨object, orError_eq_ok.mpr found, _⟩
    rw [only]
    apply except_bind_ok.mpr ⟨_, lower, _⟩
    apply except_bind_ok.mpr ⟨_, upper, _⟩
    rw [if_neg fits]
    rfl

theorem parseDefinition_eq_ok {definition : Value} :
    parseDefinition unicode parseFields field definition = .ok mapping ↔
      ∃ object, definition.asObject = some object ∧
        parseType field object = .ok mapping.fieldType ∧
        parseAnalyzer unicode field (object.lookup "analyzer") =
          .ok (mapping.analyzerName, mapping.customAnalyzer) ∧
        parseAnalyzer unicode field (object.lookup "search_analyzer") =
          .ok (mapping.searchAnalyzer, mapping.customSearchAnalyzer) ∧
        parseNorms field (object.lookup "norms") = .ok mapping.norms ∧
        ¬ (mapping.fieldType ≠ .text ∧ (mapping.analyzerName.isSome ∨ mapping.customAnalyzer.isSome ∨
          mapping.searchAnalyzer.isSome ∨ mapping.customSearchAnalyzer.isSome)) ∧
        parseNormalizer unicode field (object.lookup "normalizer") = .ok mapping.normalizer ∧
        parsePrefixes field mapping.fieldType (object.lookup "index_prefixes") =
          .ok mapping.indexPrefixes ∧
        parseDateFormat field mapping.fieldType (object.lookup "format") = .ok mapping.dateFormat ∧
        parseFieldsBlock parseFields (object.lookup "fields") = .ok mapping.fields := by
  unfold parseDefinition
  constructor
  · intro parsed
    obtain ⟨object, found, parsed⟩ := except_bind_ok.mp parsed
    obtain ⟨fieldType, type, parsed⟩ := except_bind_ok.mp parsed
    obtain ⟨⟨analyzer, customAnalyzer⟩, index, parsed⟩ := except_bind_ok.mp parsed
    obtain ⟨⟨searchAnalyzer, customSearchAnalyzer⟩, search, parsed⟩ := except_bind_ok.mp parsed
    obtain ⟨norms, normed, parsed⟩ := except_bind_ok.mp parsed
    split at parsed
    · cases parsed
    · rename_i text_only
      obtain ⟨normalizer, normalized, parsed⟩ := except_bind_ok.mp parsed
      obtain ⟨indexPrefixes, prefixed, parsed⟩ := except_bind_ok.mp parsed
      obtain ⟨dateFormat, formatted, parsed⟩ := except_bind_ok.mp parsed
      obtain ⟨fields, nested, parsed⟩ := except_bind_ok.mp parsed
      cases parsed
      exact ⟨object, orError_eq_ok.mp found, type, index, search, normed, text_only, normalized,
        prefixed, formatted, nested⟩
  · rintro ⟨object, found, type, index, search, normed, text_only, normalized, prefixed, formatted,
      nested⟩
    apply except_bind_ok.mpr ⟨object, orError_eq_ok.mpr found, _⟩
    apply except_bind_ok.mpr ⟨_, type, _⟩
    apply except_bind_ok.mpr ⟨_, index, _⟩
    apply except_bind_ok.mpr ⟨_, search, _⟩
    apply except_bind_ok.mpr ⟨_, normed, _⟩
    rw [if_neg text_only]
    apply except_bind_ok.mpr ⟨_, normalized, _⟩
    apply except_bind_ok.mpr ⟨_, prefixed, _⟩
    apply except_bind_ok.mpr ⟨_, formatted, _⟩
    apply except_bind_ok.mpr ⟨_, nested, _⟩
    cases mapping
    rfl

end Definitions

section Attributes

variable (mapping : FieldMapping) (fields : Option Value)

theorem get?_attributes_type :
    (attributes mapping fields).get? "type" = some (.string (fieldTypeName mapping.fieldType)) := by
  simp [attributes]

theorem get?_attributes_analyzer : (attributes mapping fields).get? "analyzer" =
    analyzerValue mapping.analyzerName mapping.customAnalyzer := by
  simp [attributes]

theorem get?_attributes_search_analyzer : (attributes mapping fields).get? "search_analyzer" =
    analyzerValue mapping.searchAnalyzer mapping.customSearchAnalyzer := by
  simp [attributes]

theorem get?_attributes_norms :
    (attributes mapping fields).get? "norms" = mapping.norms.map Value.bool := by
  simp [attributes]

theorem get?_attributes_normalizer : (attributes mapping fields).get? "normalizer" =
    mapping.normalizer.map fun name => .string (analyzerText name) := by
  simp [attributes]

theorem get?_attributes_index_prefixes : (attributes mapping fields).get? "index_prefixes" =
    mapping.indexPrefixes.map prefixesValue := by
  simp [attributes]

theorem get?_attributes_format : (attributes mapping fields).get? "format" =
    (printedFormat mapping.fieldType mapping.dateFormat).map Value.string := by
  simp [attributes]

theorem get?_attributes_fields : (attributes mapping fields).get? "fields" = fields := by
  simp [attributes]

end Attributes

section Printed

variable {unicode : Unicode} (lowercase : ∀ name, unicode.toLowercase (analyzerText name) = analyzerText name)
  {mapping : FieldMapping} (field : String)

include lowercase in
theorem fromName_analyzerText (name : AnalyzerName) :
    AnalyzerName.fromName unicode (analyzerText name) = some name := by
  rw [AnalyzerName.fromName, lowercase]
  cases name <;> rfl

theorem parseType_attributes (fields : Option Value) (known : mapping.fieldType ≠ .unknown) :
    parseType field (attributes mapping fields).entries = .ok mapping.fieldType := by
  have printed : (attributes mapping fields).entries.lookup "type" =
      some (.string (fieldTypeName mapping.fieldType)) := get?_attributes_type mapping fields
  rw [parseType, printed]
  generalize mapping.fieldType = fieldType at known
  cases fieldType <;> first | rfl | exact absurd rfl known

include lowercase in
theorem parseAnalyzer_analyzerValue {builtin : Option AnalyzerName} {custom : Option String}
    (exclusive : Exclusive unicode builtin custom) :
    parseAnalyzer unicode field (analyzerValue builtin custom) = .ok (builtin, custom) := by
  cases builtin with
  | some name =>
    rw [exclusive.one rfl]
    simp only [analyzerValue, parseAnalyzer, Value.asStr, orError]
    refine except_bind_ok.mpr ⟨_, rfl, ?_⟩
    rw [fromName_analyzerText lowercase]
    rfl
  | none =>
    cases custom with
    | none => rfl
    | some name =>
      simp only [analyzerValue, Option.map_some, parseAnalyzer, Value.asStr, orError]
      refine except_bind_ok.mpr ⟨_, rfl, ?_⟩
      rw [exclusive.foreign name rfl]
      rfl

theorem parseNorms_map (norms : Option Bool) :
    parseNorms field (norms.map Value.bool) = .ok norms := by
  cases norms <;> rfl

include lowercase in
theorem parseNormalizer_map (normalizer : Option AnalyzerName) :
    parseNormalizer unicode field (normalizer.map fun name => .string (analyzerText name)) =
      .ok normalizer := by
  cases normalizer with
  | none => rfl
  | some name =>
    simp only [Option.map_some, parseNormalizer, Value.asStr, orError]
    show (orError (.unsupportedNormalizer field (analyzerText name))
      (AnalyzerName.fromName unicode (analyzerText name)) >>= fun builtin => pure (some builtin)) = _
    rw [fromName_analyzerText lowercase]
    rfl

theorem parsePrefixBound_some {bound : String} {n absent : Nat} {object : List (String × Value)}
    (found : object.lookup bound = some (Value.ofNat n)) (small : n < 2 ^ 64) :
    parsePrefixBound field bound object absent = .ok n := by
  rw [parsePrefixBound, found]
  dsimp only
  rw [Value.asU64_ofNat small]
  rfl

theorem prefixesValue_entries (bounds : FieldPrefixes) : prefixesValue bounds =
    .object [("max_chars", .ofNat bounds.maxChars), ("min_chars", .ofNat bounds.minChars)] := by
  have before : "max_chars" < "min_chars" := by decide
  rw [prefixesValue, SortedMap.upsert, SortedMap.singleton]
  dsimp only
  rw [SortedMap.upsertEntries, if_pos before]

theorem parseIndexPrefixes_value {bounds : FieldPrefixes}
    (valid : minPrefixChars ≤ bounds.minChars ∧ bounds.maxChars ≤ maxPrefixBound ∧
      bounds.minChars < bounds.maxChars) :
    parseIndexPrefixes field (prefixesValue bounds) = .ok bounds := by
  have low : minPrefixChars = 2 := rfl
  have high : maxPrefixBound = 20 := rfl
  rw [prefixesValue_entries]
  apply parseIndexPrefixes_eq_ok.mpr
  refine ⟨_, rfl, rfl, ?_, ?_, ?_⟩
  · exact parsePrefixBound_some field rfl (by omega)
  · exact parsePrefixBound_some field rfl (by omega)
  · omega

theorem parsePrefixes_map (definable : Definable unicode mapping) :
    parsePrefixes field mapping.fieldType (mapping.indexPrefixes.map prefixesValue) =
      .ok mapping.indexPrefixes := by
  cases bounded : mapping.indexPrefixes with
  | none => rfl
  | some bounds =>
    have text : mapping.fieldType = .text := by
      by_contra other
      have absent := (definable.only_text other).2.2.2.2
      rw [bounded] at absent
      cases absent
    simp only [Option.map_some, parsePrefixes,
      parseIndexPrefixes_value field (definable.prefixes bounds bounded), text]
    rfl

theorem parseDateFormat_map (fieldType : FieldType) (dateFormat : Option String) :
    parseDateFormat field fieldType ((printedFormat fieldType dateFormat).map Value.string) =
      .ok (printedFormat fieldType dateFormat) := by
  unfold printedFormat
  by_cases date : fieldType = .date
  · subst date
    rfl
  · rw [if_neg date]
    rfl

include lowercase in
/-- A printed field is parsed to itself, with the sub-fields that come of the printed ones. -/
theorem parseDefinition_fieldValue (definable : Definable unicode mapping)
    (known : mapping.fieldType ≠ .unknown)
    {parseFields : Value → MappingResult (List (String × FieldMapping))}
    {fields : List (String × FieldMapping)}
    (parsed : parseFieldsBlock parseFields (if mapping.fields.isEmpty then none
      else some (.object (fieldValues mapping.fields))) = .ok fields) :
    parseDefinition unicode parseFields field (fieldValue mapping) = .ok { mapping with
      dateFormat := printedFormat mapping.fieldType mapping.dateFormat
      fields } := by
  rw [fieldValue_eq]
  generalize (if mapping.fields.isEmpty then none
    else some (Value.object (fieldValues mapping.fields))) = inner at parsed
  have looked_up (key : String) : (attributes mapping inner).entries.lookup key =
      (attributes mapping inner).get? key := rfl
  apply parseDefinition_eq_ok.mpr
  refine ⟨_, rfl, parseType_attributes field inner known, ?_, ?_, ?_, ?_, ?_, ?_, ?_, ?_⟩
  · rw [looked_up, get?_attributes_analyzer]
    exact parseAnalyzer_analyzerValue lowercase field definable.analyzer
  · rw [looked_up, get?_attributes_search_analyzer]
    exact parseAnalyzer_analyzerValue lowercase field definable.search
  · rw [looked_up, get?_attributes_norms]
    exact parseNorms_map field mapping.norms
  · rintro ⟨other, some⟩
    obtain ⟨one, two, three, four, -⟩ := definable.only_text other
    dsimp only at some
    rw [one, two, three, four] at some
    simp at some
  · rw [looked_up, get?_attributes_normalizer]
    exact parseNormalizer_map lowercase field mapping.normalizer
  · rw [looked_up, get?_attributes_index_prefixes]
    have printed := parsePrefixes_map field definable
    exact printed
  · rw [looked_up, get?_attributes_format]
    exact parseDateFormat_map field mapping.fieldType mapping.dateFormat
  · rw [looked_up, get?_attributes_fields]
    exact parsed

end Printed

section Entries

variable {blank : MappingError} {parse : String → Value → MappingResult FieldMapping}

theorem get?_parseEntries {entries : List (String × Value)}
    {fields after : SortedMap String FieldMapping}
    (parsed : parseEntries blank parse fields entries = .ok after) {name : String}
    {mapping : FieldMapping} (found : after.get? name = some mapping) :
    fields.get? name = some mapping ∨
      (isBlank name = false ∧ ∃ definition, parse name definition = .ok mapping) := by
  induction entries generalizing fields with
  | nil =>
    cases parsed
    exact .inl found
  | cons entry rest ih =>
    obtain ⟨key, definition⟩ := entry
    rw [parseEntries] at parsed
    split at parsed
    · cases parsed
    · rename_i named
      obtain ⟨value, here, parsed⟩ := except_bind_ok.mp parsed
      rcases ih parsed with earlier | later
      · rw [SortedMap.get?_upsert] at earlier
        split at earlier
        · rename_i same
          cases earlier
          rw [same]
          exact .inr ⟨Bool.not_eq_true _ ▸ named, definition, here⟩
        · exact .inl earlier
      · exact .inr later

theorem accepts_of_parseEntries {entries : List (String × Value)}
    {fields after : SortedMap String FieldMapping}
    (parsed : parseEntries blank parse fields entries = .ok after) :
    ∀ entry ∈ entries, isBlank entry.1 = false ∧ ∃ mapping, parse entry.1 entry.2 = .ok mapping := by
  induction entries generalizing fields with
  | nil => exact fun _ member => absurd member List.not_mem_nil
  | cons entry rest ih =>
    obtain ⟨key, definition⟩ := entry
    rw [parseEntries] at parsed
    split at parsed
    · cases parsed
    · rename_i named
      obtain ⟨value, here, parsed⟩ := except_bind_ok.mp parsed
      intro other member
      rcases List.mem_cons.mp member with rfl | later
      · exact ⟨Bool.not_eq_true _ ▸ named, value, here⟩
      · exact ih parsed other later

/-- Definitions in the order of their names come out in that order. -/
theorem parseEntries_sorted (blank : MappingError)
    (parse : String → Value → MappingResult FieldMapping) {entries : List (String × FieldMapping)}
    (sorted : (entries.map Prod.fst).Pairwise (· < ·)) {image : FieldMapping → FieldMapping}
    (accepted : ∀ entry ∈ entries, isBlank entry.1 = false ∧
      parse entry.1 (fieldValue entry.2) = .ok (image entry.2))
    (fields : SortedMap String FieldMapping)
    (above : ∀ key ∈ fields.keys, ∀ entry ∈ entries, key < entry.1) :
    ∃ after, parseEntries blank parse fields (fieldValues entries) = .ok after ∧
      after.entries = fields.entries ++ entries.map fun entry => (entry.1, image entry.2) := by
  induction entries generalizing fields with
  | nil => exact ⟨fields, rfl, (List.append_nil _).symm⟩
  | cons entry rest ih =>
    obtain ⟨name, mapping⟩ := entry
    obtain ⟨least, sorted⟩ := List.pairwise_cons.mp sorted
    obtain ⟨named, here⟩ := accepted _ List.mem_cons_self
    have last := fields.upsert_last (fun key member => above key member _ List.mem_cons_self)
      fun _ => image mapping
    obtain ⟨after, parsed, same⟩ := ih sorted
      (fun entry member => accepted entry (List.mem_cons_of_mem _ member))
      (fields.upsert name fun _ => image mapping) (by
        intro key member entry later
        rcases (SortedMap.mem_keys_upsert _ _ _ _).mp member with rfl | old
        · exact least entry.1 (List.mem_map_of_mem later)
        · exact above key old entry (List.mem_cons_of_mem _ later))
    refine ⟨after, ?_, ?_⟩
    · rw [fieldValues, parseEntries, if_neg (by rw [named]; exact Bool.false_ne_true), here]
      exact parsed
    · rw [same, last, List.append_assoc]
      rfl

end Entries

section Accepted

variable {unicode : Unicode} {mapping : FieldMapping} {field : String}

theorem fieldType_of_name {name : String} {fieldType : FieldType}
    (known : fieldTypeFromName name = some fieldType) : fieldType ≠ .unknown := by
  rintro rfl
  unfold fieldTypeFromName at known
  split at known <;> cases known

theorem exclusive_of_parse {value : Option Value} {builtin : Option AnalyzerName}
    {custom : Option String} (parsed : parseAnalyzer unicode field value = .ok (builtin, custom)) :
    Exclusive unicode builtin custom := by
  cases value with
  | none =>
    cases parsed
    exact ⟨nofun, nofun⟩
  | some value =>
    obtain ⟨name, -, parsed⟩ := except_bind_ok.mp parsed
    split at parsed
    · cases parsed
      exact ⟨fun _ => rfl, nofun⟩
    · rename_i foreign
      cases parsed
      constructor
      · exact nofun
      · intro _ same
        cases same
        exact foreign

theorem prefixes_of_parse {fieldType : FieldType} {value : Option Value}
    {indexPrefixes : Option FieldPrefixes}
    (parsed : parsePrefixes field fieldType value = .ok indexPrefixes) :
    (fieldType ≠ .text → indexPrefixes = none) ∧ ∀ bounds ∈ indexPrefixes,
      minPrefixChars ≤ bounds.minChars ∧ bounds.maxChars ≤ maxPrefixBound ∧
        bounds.minChars < bounds.maxChars := by
  cases value with
  | none =>
    cases parsed
    exact ⟨fun _ => rfl, nofun⟩
  | some value =>
    obtain ⟨bounds, found, parsed⟩ := except_bind_ok.mp parsed
    split at parsed
    · cases parsed
    · rename_i text
      cases parsed
      constructor
      · exact fun other => absurd other text
      · intro _ same
        cases same
        obtain ⟨-, -, -, -, -, fits⟩ := parseIndexPrefixes_eq_ok.mp found
        omega

theorem format_of_parse {fieldType : FieldType} {value : Option Value} {dateFormat : Option String}
    (parsed : parseDateFormat field fieldType value = .ok dateFormat) (other : fieldType ≠ .date) :
    dateFormat = none := by
  cases value with
  | none =>
    cases parsed
    rfl
  | some value =>
    obtain ⟨format, -, parsed⟩ := except_bind_ok.mp parsed
    rw [if_pos other] at parsed
    cases parsed

/-- What the parser returns is what it accepts, with sub-fields from its own parser. -/
theorem definable_of_parse {parseFields : Value → MappingResult (List (String × FieldMapping))}
    {definition : Value} (parsed : parseDefinition unicode parseFields field definition = .ok mapping) :
    Definable unicode mapping ∧ mapping.fieldType ≠ .unknown ∧
      (mapping.fields = [] ∨ ∃ value, parseFields value = .ok mapping.fields) := by
  obtain ⟨object, -, type, index, search, -, text_only, -, prefixed, formatted, nested⟩ :=
    parseDefinition_eq_ok.mp parsed
  have prefixes := prefixes_of_parse prefixed
  constructor
  · constructor
    · exact exclusive_of_parse index
    · exact exclusive_of_parse search
    · intro other
      have none : ¬ (mapping.analyzerName.isSome ∨ mapping.customAnalyzer.isSome ∨
          mapping.searchAnalyzer.isSome ∨ mapping.customSearchAnalyzer.isSome) :=
        fun some => text_only ⟨other, some⟩
      simp only [not_or, Option.not_isSome_iff_eq_none] at none
      obtain ⟨one, two, three, four⟩ := none
      exact ⟨one, two, three, four, prefixes.1 other⟩
    · exact prefixes.2
    · exact format_of_parse formatted
  · constructor
    · exact fieldType_of_name (orError_eq_ok.mp type)
    · cases found : object.lookup "fields" with
      | none =>
        rw [found] at nested
        exact .inl (Except.ok.inj nested).symm
      | some value =>
        rw [found] at nested
        exact .inr ⟨value, nested⟩

theorem subfields_of_parse {value : Value} {fields : List (String × FieldMapping)}
    (parsed : parseSubfields unicode field value = .ok fields) :
    (fields.map Prod.fst).Pairwise (· < ·) ∧ ∀ entry ∈ fields, Subfield unicode entry := by
  obtain ⟨entries, -, parsed⟩ := except_bind_ok.mp parsed
  obtain ⟨after, looped, parsed⟩ := except_bind_ok.mp parsed
  cases parsed
  constructor
  · exact after.sorted
  · rintro ⟨name, sub⟩ member
    rcases get?_parseEntries looped ((SortedMap.get?_eq_some_iff _ _ _).mpr member) with
      impossible | ⟨named, definition, here⟩
    · cases impossible
    · obtain ⟨definable, known, leaf⟩ := definable_of_parse here
      constructor
      · exact named
      · exact known
      · exact definable
      · rcases leaf with empty | ⟨value, nested⟩
        · exact empty
        · cases nested

theorem mapped_of_parse {definition : Value}
    (parsed : parseFieldDefinition unicode field definition = .ok mapping) :
    Mapped unicode mapping ∧ mapping.fieldType ≠ .unknown := by
  obtain ⟨definable, known, nested⟩ := definable_of_parse parsed
  have subfields : (mapping.fields.map Prod.fst).Pairwise (· < ·) ∧
      ∀ entry ∈ mapping.fields, Subfield unicode entry := by
    rcases nested with empty | ⟨value, nested⟩
    · rw [empty]
      exact ⟨.nil, fun _ member => absurd member List.not_mem_nil⟩
    · exact subfields_of_parse nested
  exact ⟨⟨definable, subfields.1, subfields.2⟩, known⟩

theorem mapped_new (unicode : Unicode) (fieldType : FieldType) :
    Mapped unicode (.new fieldType none) := by
  constructor
  · exact ⟨⟨fun _ => rfl, nofun⟩, ⟨fun _ => rfl, nofun⟩, fun _ => ⟨rfl, rfl, rfl, rfl, rfl⟩, nofun,
      fun _ => rfl⟩
  · exact .nil
  · exact fun _ member => absurd member List.not_mem_nil

end Accepted

section Replay

variable {unicode : Unicode} (lowercase : ∀ name, unicode.toLowercase (analyzerText name) = analyzerText name)
  {mapping : FieldMapping} (field : String)

include lowercase in
theorem parseSubfields_fieldValues {fields : List (String × FieldMapping)}
    (sorted : (fields.map Prod.fst).Pairwise (· < ·))
    (subfields : ∀ entry ∈ fields, Subfield unicode entry) :
    parseSubfields unicode field (.object (fieldValues fields)) = .ok (resolvedFields fields) := by
  have accepted : ∀ entry ∈ fields, isBlank entry.1 = false ∧
      parseSubfield unicode field entry.1 (fieldValue entry.2) = .ok (resolved entry.2) := by
    intro entry member
    have subfield := subfields entry member
    have empty : entry.2.fields.isEmpty = true := by
      rw [subfield.leaf]
      rfl
    constructor
    · exact subfield.named
    · rw [parseSubfield, parseDefinition_fieldValue lowercase _ subfield.definable subfield.known
        (by rw [if_pos empty]; rfl), resolved_eq, subfield.leaf]
      rfl
  obtain ⟨after, parsed, same⟩ := parseEntries_sorted (.emptySubfieldName field)
    (parseSubfield unicode field) sorted accepted .empty fun _ member => absurd member List.not_mem_nil
  apply except_bind_ok.mpr ⟨_, rfl, _⟩
  apply except_bind_ok.mpr ⟨after, parsed, _⟩
  rw [resolvedFields_eq_map]
  exact congrArg Except.ok same

include lowercase in
theorem parseFieldDefinition_fieldValue (mapped : Mapped unicode mapping)
    (known : mapping.fieldType ≠ .unknown) :
    parseFieldDefinition unicode field (fieldValue mapping) = .ok (resolved mapping) := by
  rw [resolved_eq]
  apply parseDefinition_fieldValue lowercase field mapped.definable known
  by_cases empty : mapping.fields = []
  · rw [empty]
    rfl
  · rw [if_neg (by rw [List.isEmpty_iff]; exact empty)]
    exact parseSubfields_fieldValues lowercase field mapped.sorted mapped.subfields

/-- A field of the unknown type is printed under a name that no type has. -/
theorem parseFieldDefinition_unknown (unknown : mapping.fieldType = .unknown)
    {result : FieldMapping} : parseFieldDefinition unicode field (fieldValue mapping) ≠ .ok result := by
  intro parsed
  obtain ⟨object, found, type, -⟩ := parseDefinition_eq_ok.mp parsed
  rw [fieldValue_eq] at found
  obtain rfl := Option.some.inj found
  generalize (if mapping.fields.isEmpty then none
    else some (Value.object (fieldValues mapping.fields))) = inner at type
  have printed : (attributes mapping inner).entries.lookup "type" = some (.string "unknown") := by
    have name := get?_attributes_type mapping inner
    rw [unknown] at name
    exact name
  rw [parseType, printed] at type
  cases type

theorem printedFormat_idem (fieldType : FieldType) (dateFormat : Option String) :
    printedFormat fieldType (printedFormat fieldType dateFormat) = printedFormat fieldType dateFormat := by
  unfold printedFormat
  split <;> rfl

mutual

theorem fieldValue_resolved : ∀ mapping, fieldValue (resolved mapping) = fieldValue mapping
  | ⟨fieldType, analyzer, customAnalyzer, searchAnalyzer, customSearchAnalyzer, norms, normalizer,
      indexPrefixes, dateFormat, fields⟩ => by
    have empty : (resolvedFields fields).isEmpty = fields.isEmpty := by
      cases fields <;> rfl
    rw [resolved, fieldValue, fieldValue, fieldValues_resolvedFields fields, empty]
    simp only [attributes, printedFormat_idem]

theorem fieldValues_resolvedFields : ∀ fields, fieldValues (resolvedFields fields) = fieldValues fields
  | [] => rfl
  | (name, mapping) :: rest => by
    rw [resolvedFields, fieldValues, fieldValues, fieldValue_resolved mapping,
      fieldValues_resolvedFields rest]

end

end Replay

section Runs

variable (unicode : Unicode)

inductive MappingEvent where
  | properties (value : Value)
  | define (field : String) (definition : Value)
  | document (source : Value)
  | analysis (settings : AnalysisSettings)

def MappingEvent.step (mapping : IndexMapping) : MappingEvent → IndexMapping
  | .properties value => match fromPropertiesValue unicode value with
    | .ok parsed => parsed
    | .error _ => mapping
  | .define field definition => match parseFieldDefinition unicode field definition with
    | .ok parsed => { mapping with fields := mapping.fields.upsert field fun _ => parsed }
    | .error _ => mapping
  | .document source => ensureFields mapping source
  | .analysis settings => { mapping with analysis := settings }

/- The printed mapping is accepted, and comes out with its formats made explicit; printed again it is
what it was. -/
def Replays (mapping : IndexMapping) : Prop :=
  ∃ replayed, fromPropertiesValue unicode (mappingProperties mapping) = .ok replayed ∧
    replayed.fields.entries = resolvedFields mapping.fields.entries ∧
    mappingValue replayed = mappingValue mapping

/- Every field has a name, and a type that has one. -/
def Printable (mapping : IndexMapping) : Prop :=
  ∀ entry ∈ mapping.fields.entries, isBlank entry.1 = false ∧ entry.2.fieldType ≠ .unknown

/- A document adds no field that has a blank name or the value null, and no definition is given under a
blank name. -/
def Harmless (mapping : IndexMapping) : MappingEvent → Prop
  | .define field _ => isBlank field = false
  | .document (.object entries) => ∀ entry ∈ entries, (mapping.fields.get? entry.1).isNone →
    isBlank entry.1 = false ∧ inferFieldType entry.2 ≠ .unknown
  | _ => True

instance (mapping : IndexMapping) : ∀ e : MappingEvent, Decidable (Harmless mapping e)
  | .properties _ => isTrue trivial
  | .define field _ => inferInstanceAs (Decidable (isBlank field = false))
  | .document (.object entries) => inferInstanceAs (Decidable (∀ entry ∈ entries, _ → _))
  | .document .null => isTrue trivial
  | .document (.bool _) => isTrue trivial
  | .document (.number _ _) => isTrue trivial
  | .document (.string _) => isTrue trivial
  | .document (.array _) => isTrue trivial
  | .analysis _ => isTrue trivial

variable {unicode} {mapping : IndexMapping}

/-- The fields that a document adds are new ones with an inferred type. -/
theorem get?_ensureFields {entries : List (String × Value)} {name : String}
    {fieldMapping : FieldMapping}
    (found : (ensureFields mapping (.object entries)).fields.get? name = some fieldMapping) :
    mapping.fields.get? name = some fieldMapping ∨ ∃ entry ∈ entries, entry.1 = name ∧
      (mapping.fields.get? name).isNone ∧ fieldMapping = .new (inferFieldType entry.2) none := by
  induction entries generalizing mapping with
  | nil => exact .inl found
  | cons entry rest ih =>
    obtain ⟨field, value⟩ := entry
    change (ensureFields (if (mapping.fields.get? field).isSome then mapping
      else { mapping with
        fields := mapping.fields.upsert field fun _ => .new (inferFieldType value) none })
      (.object rest)).fields.get? name = some fieldMapping at found
    by_cases mapped : (mapping.fields.get? field).isSome
    · rw [if_pos mapped] at found
      rcases ih found with old | ⟨entry, member, new⟩
      · exact .inl old
      · exact .inr ⟨entry, List.mem_cons_of_mem _ member, new⟩
    · rw [if_neg mapped] at found
      have absent : (mapping.fields.get? field).isNone := by simpa using mapped
      rcases ih found with old | ⟨entry, member, named, missing, new⟩
      · rw [SortedMap.get?_upsert] at old
        split at old
        · rename_i same
          cases old
          rw [same]
          exact .inr ⟨_, List.mem_cons_self, rfl, absent, rfl⟩
        · exact .inl old
      · rw [SortedMap.get?_upsert] at missing
        split at missing
        · cases missing
        · exact .inr ⟨entry, List.mem_cons_of_mem _ member, named, missing, new⟩

/- Every field of the mapping is one that the parser accepts, its type and its name apart. -/
def Declared (unicode : Unicode) (mapping : IndexMapping) : Prop :=
  ∀ name field, mapping.fields.get? name = some field → Mapped unicode field

theorem declared_fromPropertiesValue {value : Value}
    (parsed : fromPropertiesValue unicode value = .ok mapping) :
    Declared unicode mapping ∧ Printable mapping := by
  obtain ⟨properties, -, parsed⟩ := except_bind_ok.mp parsed
  obtain ⟨fields, looped, parsed⟩ := except_bind_ok.mp parsed
  cases parsed
  constructor
  · intro name field found
    rcases get?_parseEntries looped found with impossible | ⟨-, definition, here⟩
    · cases impossible
    · exact (mapped_of_parse here).1
  · rintro ⟨name, field⟩ member
    rcases get?_parseEntries looped ((SortedMap.get?_eq_some_iff _ _ _).mpr member) with
      impossible | ⟨named, definition, here⟩
    · cases impossible
    · exact ⟨named, (mapped_of_parse here).2⟩

theorem declared_step (declared : Declared unicode mapping) (e : MappingEvent) :
    Declared unicode (e.step unicode mapping) := by
  cases e with
  | properties value =>
    unfold MappingEvent.step
    dsimp only
    split
    · rename_i parsed
      exact (declared_fromPropertiesValue parsed).1
    · exact declared
  | define field definition =>
    unfold MappingEvent.step
    dsimp only
    split
    · rename_i parsed
      intro name fieldMapping found
      rw [SortedMap.get?_upsert] at found
      split at found
      · cases found
        exact (mapped_of_parse parsed).1
      · exact declared name fieldMapping found
    · exact declared
  | document source =>
    cases source with
    | object entries =>
      intro name fieldMapping found
      rcases get?_ensureFields found with old | ⟨entry, -, -, -, rfl⟩
      · exact declared name fieldMapping old
      · exact mapped_new unicode _
    | _ => exact declared
  | analysis settings => exact declared

theorem declared_run (declared : Declared unicode mapping) (events : List MappingEvent) :
    Declared unicode (runEvents (MappingEvent.step unicode) events mapping) := by
  induction events generalizing mapping with
  | nil => exact declared
  | cons e rest ih => exact ih (declared_step declared e)

theorem printable_step (printable : Printable mapping) {e : MappingEvent}
    (harmless : Harmless mapping e) : Printable (e.step unicode mapping) := by
  cases e with
  | properties value =>
    unfold MappingEvent.step
    dsimp only
    split
    · rename_i parsed
      exact (declared_fromPropertiesValue parsed).2
    · exact printable
  | define field definition =>
    unfold MappingEvent.step
    dsimp only
    split
    · rename_i parsed
      rintro ⟨name, fieldMapping⟩ member
      have found := (SortedMap.get?_eq_some_iff _ _ _).mpr member
      rw [SortedMap.get?_upsert] at found
      split at found
      · rename_i same
        cases found
        subst same
        exact ⟨harmless, (mapped_of_parse parsed).2⟩
      · exact printable _ ((SortedMap.get?_eq_some_iff _ _ _).mp found)
    · exact printable
  | document source =>
    cases source with
    | object entries =>
      rintro ⟨name, fieldMapping⟩ member
      have found := (SortedMap.get?_eq_some_iff _ _ _).mpr member
      rcases get?_ensureFields found with old | ⟨entry, inside, rfl, absent, rfl⟩
      · exact printable _ ((SortedMap.get?_eq_some_iff _ _ _).mp old)
      · exact harmless entry inside absent
    | _ => exact printable
  | analysis settings => exact printable

end Runs

section Theorem

variable {unicode : Unicode} (lowercase : ∀ name, unicode.toLowercase (analyzerText name) = analyzerText name)
  {mapping : IndexMapping}

/-- A printed mapping that is accepted had a name for everything. -/
theorem printable_of_accepted {replayed : IndexMapping}
    (parsed : fromPropertiesValue unicode (mappingProperties mapping) = .ok replayed) :
    Printable mapping := by
  intro entry member
  obtain ⟨properties, found, parsed⟩ := except_bind_ok.mp parsed
  cases found
  obtain ⟨fields, looped, -⟩ := except_bind_ok.mp parsed
  have printed : (entry.1, fieldValue entry.2) ∈ fieldValues mapping.fields.entries := by
    rw [fieldValues_eq_map]
    exact List.mem_map_of_mem member
  obtain ⟨named, result, accepted⟩ := accepts_of_parseEntries looped _ printed
  exact ⟨named, fun unknown => parseFieldDefinition_unknown _ unknown accepted⟩

include lowercase in
/-- A mapping can be replayed just when all that it says has a name. -/
theorem replays_iff (declared : Declared unicode mapping) :
    Replays unicode mapping ↔ Printable mapping := by
  constructor
  · rintro ⟨replayed, parsed, -⟩
    exact printable_of_accepted parsed
  · intro printable
    have accepted : ∀ entry ∈ mapping.fields.entries, isBlank entry.1 = false ∧
        parseFieldDefinition unicode entry.1 (fieldValue entry.2) = .ok (resolved entry.2) := by
      intro entry member
      have mapped := declared entry.1 entry.2 ((SortedMap.get?_eq_some_iff _ _ _).mpr member)
      exact ⟨(printable entry member).1,
        parseFieldDefinition_fieldValue lowercase _ mapped (printable entry member).2⟩
    obtain ⟨fields, looped, same⟩ := parseEntries_sorted .emptyFieldName
      (parseFieldDefinition unicode) mapping.fields.sorted accepted .empty
      fun _ member => absurd member List.not_mem_nil
    have entries : fields.entries = resolvedFields mapping.fields.entries := by
      rw [resolvedFields_eq_map]
      exact same
    refine ⟨{ fields, analysis := .default }, ?_, entries, ?_⟩
    · apply except_bind_ok.mpr ⟨_, rfl, _⟩
      apply except_bind_ok.mpr ⟨fields, looped, _⟩
      rfl
    · rw [mappingValue, mappingProperties, entries, fieldValues_resolvedFields]
      rfl

theorem declared_default : Declared unicode .default := by
  intro name field found
  cases found

include lowercase in
/-- After any history a mapping can be replayed just when every field has a name and a type that has one,
and this is so after every history of harmless events. -/
theorem mapping_replays (events : List MappingEvent) :
    (Replays unicode (runEvents (MappingEvent.step unicode) events .default) ↔
      Printable (runEvents (MappingEvent.step unicode) events .default)) ∧
    (Admitted (MappingEvent.step unicode) Harmless .default events →
      Replays unicode (runEvents (MappingEvent.step unicode) events .default)) := by
  have declared : Declared unicode .default := declared_default
  have iff := replays_iff lowercase (declared_run declared events)
  constructor
  · exact iff
  · intro harmless
    apply iff.mpr
    apply harmless.keeps fun mapping e printable allowed => printable_step printable allowed
    exact fun _ member => absurd member List.not_mem_nil

end Theorem

section Examples

theorem ascii_lowercase : ∀ name, Unicode.ascii.toLowercase (analyzerText name) = analyzerText name := by
  intro name
  cases name <;> decide +kernel

def deaths : List MappingEvent :=
  [.properties (.object [
      ("DATE_NAISSANCE", .object [("type", .string "date")]),
      ("NOM", .object [("analyzer", .string "norm"), ("fields", .object [("raw", .object
        [("normalizer", .string "norm"), ("type", .string "keyword")])]), ("type", .string "text")])]),
    .document (.object [("NOM", .string "MARTIN"), ("SEXE", .number "1" false)])]

theorem mapping_replays_deaths :
    Replays .ascii (runEvents (MappingEvent.step .ascii) deaths .default) :=
  (mapping_replays ascii_lowercase deaths).2 (by decide +kernel)

/-- A document with a null leaves a field of the type `unknown`, which cannot be replayed. -/
theorem not_mapping_replays : ¬ ∀ events : List MappingEvent,
    Replays .ascii (runEvents (MappingEvent.step .ascii) events .default) := by
  intro always
  obtain ⟨replayed, parsed, -⟩ := always [.document (.object [("DATE_DECES", .null)])]
  have refused : (fromPropertiesValue .ascii (mappingProperties (runEvents (MappingEvent.step .ascii)
      [.document (.object [("DATE_DECES", .null)])] .default))).toOption.isSome = false := by
    decide +kernel
  rw [parsed] at refused
  cases refused

end Examples

end Surch.Api
