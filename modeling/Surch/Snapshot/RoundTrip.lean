import Surch.Snapshot.Coverage
import Surch.Snapshot.Tarball

/-! An index that is exported and restored is the index that it was, unless something of its mapping is
not among what the tarball keeps. -/
namespace Surch.Snapshot
open Surch.Lib Surch.Index Surch.Postings Surch.Api

section Encoding

variable (encodings : Encodings)

def KeepsValue (value : Value) : Prop :=
  ∃ bytes, encodings.toVecPretty value = .ok bytes ∧ encodings.fromSlice bytes = .ok value

def KeepsLine (value : Value) : Prop :=
  ∃ text : String, encodings.toVec value = .ok (utf8 text) ∧
    encodings.fromSlice (utf8 text) = .ok value ∧ IsLine isWhitespace text.toList

/- `serde_json` gives back what this export hands to it. -/
structure Lossless (index : String) (metadata : IndexMetadata) (documents : List (String × Value)) :
    Prop where
  manifest : ∃ bytes, encodings.manifestToVecPretty (indexManifest index documents) = .ok bytes ∧
    encodings.manifestFromSlice bytes = .ok (indexManifest index documents)
  mapping : KeepsValue encodings metadata.mapping
  settings : KeepsValue encodings metadata.settings
  aliases : KeepsValue encodings (aliasesToValue metadata.aliases)
  documents : ∀ document ∈ documents, KeepsLine encodings (documentValue document)

end Encoding

section Parsing

variable {encodings : Encodings} {unicode : Unicode}

theorem utf8_append (s t : String) : utf8 (s ++ t) = utf8 s ++ utf8 t := by
  unfold utf8
  rw [String.toByteArray_append, ByteArray.toList_data_append]

theorem parseDocumentLines_cons {document : String × Value} {text : String} {lineNo : Nat}
    (read : encodings.fromSlice (utf8 text) = .ok (documentValue document))
    (line : IsLine isWhitespace text.toList) {rest : List (List Char)}
    {later : List (String × Value)}
    (parsed : parseDocumentLines encodings (lineNo + 1) rest = .ok later) :
    parseDocumentLines encodings lineNo (text.toList :: rest) = .ok (document :: later) := by
  have full : text.toList.isEmpty = false := List.isEmpty_eq_false_iff.mpr line.nonempty
  simp only [parseDocumentLines, line.trimmed, full, String.ofList_toList, read, parsed]
  rfl

theorem parseDocumentLines_bytes {documents : List (String × Value)}
    (kept : ∀ document ∈ documents, KeepsLine encodings (documentValue document)) :
    ∃ texts, documentsBytes encodings documents = .ok (utf8 (String.ofList (unlines texts))) ∧
      (∀ text ∈ texts, IsLine isWhitespace text) ∧
      ∀ lineNo, parseDocumentLines encodings lineNo texts = .ok documents := by
  induction documents with
  | nil => exact ⟨[], rfl, fun _ member => absurd member List.not_mem_nil, fun _ => rfl⟩
  | cons document rest ih =>
    obtain ⟨text, printed, read, line⟩ := kept document List.mem_cons_self
    obtain ⟨texts, written, lines, parsed⟩ :=
      ih fun other member => kept other (List.mem_cons_of_mem _ member)
    refine ⟨text.toList :: texts, ?_, ?_, ?_⟩
    · have joined : String.ofList (unlines (text.toList :: texts)) =
          text ++ "\n" ++ String.ofList (unlines texts) := by
        apply String.toList_injective
        simp [unlines]
      rw [joined, utf8_append, utf8_append, documentsBytes, printed, written]
      rfl
    · intro other member
      rcases List.mem_cons.mp member with rfl | later
      · exact line
      · exact lines other later
    · intro lineNo
      exact parseDocumentLines_cons read line (parsed (lineNo + 1))

theorem parseDocumentsNdjson_bytes {documents : List (String × Value)}
    (kept : ∀ document ∈ documents, KeepsLine encodings (documentValue document)) :
    ∃ bytes, documentsBytes encodings documents = .ok bytes ∧
      parseDocumentsNdjson encodings bytes = .ok documents := by
  obtain ⟨texts, written, standing, parsed⟩ := parseDocumentLines_bytes kept
  refine ⟨_, written, ?_⟩
  have back := @lines_unlines isWhitespace (by decide) texts standing
  rw [parseDocumentsNdjson, fromUtf8_utf8]
  show parseDocumentLines encodings 0 (lines (String.ofList (unlines texts)).toList) = _
  rw [String.toList_ofList, back]
  exact parsed 0

theorem parseAliasesValue_toValue (aliases : SortedMap String Value) :
    parseAliasesValue (aliasesToValue aliases) = .ok aliases :=
  congrArg Except.ok (SortedMap.empty_extend aliases)

/-- What is parsed of a tarball is what it was built of; only the mapping may be refused. -/
theorem parseTarball_build {index : String} {metadata : IndexMetadata}
    {documents : List (String × Value)} (lossless : Lossless encodings index metadata documents) :
    ∃ body, buildIndexTarballForEsSnapshot encodings index metadata documents = .ok body ∧
      parseTarball encodings unicode body = (parseMappingValue unicode metadata.mapping).map
        fun mapping => ⟨indexManifest index documents, mapping, metadata.settings, metadata.aliases,
          documents⟩ := by
  obtain ⟨manifestBytes, manifestPrinted, manifestRead⟩ := lossless.manifest
  obtain ⟨mappingBytes, mappingPrinted, mappingRead⟩ := lossless.mapping
  obtain ⟨settingsBytes, settingsPrinted, settingsRead⟩ := lossless.settings
  obtain ⟨aliasesBytes, aliasesPrinted, aliasesRead⟩ := lossless.aliases
  obtain ⟨lines, linesWritten, linesRead⟩ := parseDocumentsNdjson_bytes lossless.documents
  refine ⟨[(manifestEntry, manifestBytes), (mappingEntry, mappingBytes), (settingsEntry, settingsBytes),
    (aliasesEntry, aliasesBytes), (documentsEntry, lines)], ?_, ?_⟩
  · simp only [buildIndexTarballForEsSnapshot, buildTarball, manifestPrinted, mappingPrinted,
      settingsPrinted, aliasesPrinted, linesWritten]
    rfl
  · have parts : List.foldlM (readEntry encodings) ⟨none, none, none, none, none⟩
        [(manifestEntry, manifestBytes), (mappingEntry, mappingBytes), (settingsEntry, settingsBytes),
          (aliasesEntry, aliasesBytes), (documentsEntry, lines)] =
        .ok ⟨some (indexManifest index documents), some metadata.mapping, some metadata.settings,
          some (aliasesToValue metadata.aliases), some lines⟩ := by
      simp [List.foldlM, readEntry, allowedEntries, manifestEntry, mappingEntry, settingsEntry,
        aliasesEntry, documentsEntry, manifestRead, mappingRead, settingsRead, aliasesRead,
        Except.mapError]
      rfl
    rw [parseTarball, parts]
    show (parseMappingValue unicode metadata.mapping >>= fun mapping =>
      parseAliasesValue (aliasesToValue metadata.aliases) >>= fun aliases =>
      parseDocumentsNdjson encodings lines >>= fun documents => _) = _
    rw [parseAliasesValue_toValue, linesRead]
    cases parseMappingValue unicode metadata.mapping <;> rfl

end Parsing

section Formats

variable {unicode : Unicode}

def StatesFormat (mapping : FieldMapping) : Prop :=
  mapping.fieldType = .date → mapping.dateFormat.isSome = true

def FormatsStated (mapping : IndexMapping) : Prop :=
  ∀ entry ∈ mapping.fields.entries, StatesFormat entry.2 ∧ ∀ sub ∈ entry.2.fields, StatesFormat sub.2

theorem printedFormat_eq_iff {mapping : FieldMapping} (definable : Definable unicode mapping) :
    printedFormat mapping.fieldType mapping.dateFormat = mapping.dateFormat ↔ StatesFormat mapping := by
  unfold printedFormat StatesFormat
  by_cases date : mapping.fieldType = .date
  · rw [if_pos date]
    cases mapping.dateFormat with
    | none => simp [date]
    | some format => simp
  · rw [if_neg date, definable.only_date date]
    simp [date]

theorem map_eq_self_iff {α : Type} {f : α → α} {items : List α} :
    items.map f = items ↔ ∀ item ∈ items, f item = item := by
  have same := List.map_inj_left (l := items) (f := f) (g := id)
  rw [List.map_id] at same
  exact same

theorem resolvedFields_eq_self_iff {fields : List (String × FieldMapping)} :
    resolvedFields fields = fields ↔ ∀ entry ∈ fields, resolved entry.2 = entry.2 := by
  rw [resolvedFields_eq_map, map_eq_self_iff]
  constructor
  · exact fun same entry member => congrArg Prod.snd (same entry member)
  · exact fun same entry member => Prod.ext rfl (same entry member)

theorem resolved_eq_self_iff {mapping : FieldMapping} (definable : Definable unicode mapping) :
    resolved mapping = mapping ↔
      StatesFormat mapping ∧ resolvedFields mapping.fields = mapping.fields := by
  rw [resolved_eq, ← printedFormat_eq_iff definable]
  constructor
  · exact fun same => ⟨congrArg FieldMapping.dateFormat same, congrArg FieldMapping.fields same⟩
  · rintro ⟨format, fields⟩
    rw [format, fields]
    cases mapping
    rfl

/-- A mapping comes out of the parser as it was printed just when every date states its format. -/
theorem formatsStated_iff {mapping : IndexMapping} (declared : Declared unicode mapping) :
    resolvedFields mapping.fields.entries = mapping.fields.entries ↔ FormatsStated mapping := by
  rw [resolvedFields_eq_self_iff]
  apply forall₂_congr
  intro entry member
  have mapped := declared entry.1 entry.2 ((SortedMap.get?_eq_some_iff _ _ _).mpr member)
  rw [resolved_eq_self_iff mapped.definable, resolvedFields_eq_self_iff]
  apply and_congr_right
  intro _
  apply forall₂_congr
  intro sub inside
  have subfield := mapped.subfields sub inside
  rw [resolved_eq_self_iff subfield.definable, subfield.leaf]
  exact and_iff_left rfl

end Formats

section Restored

variable {catalog : Catalog}

theorem get?_indexDocument {index : String} {data : StoredIndex}
    (found : catalog.indices.get? index = some data) (id : String) (source : Value) :
    (catalog.indexDocument index id source).indices.get? index =
        some (data.upsertDocument id source) ∧
      (catalog.indexDocument index id source).aliases = catalog.aliases := by
  have there : catalog.indexExists index = true := by rw [Catalog.indexExists, found]; rfl
  rw [Catalog.indexDocument, Catalog.ensureIndex_of_exists there]
  constructor
  · rw [Catalog.get?_modify, if_pos rfl, found]
    rfl
  · rw [Catalog.modify, found]
    rfl

theorem get?_indexDocuments {index : String} {data : StoredIndex}
    (found : catalog.indices.get? index = some data) (documents : List (String × Value)) :
    (indexDocuments catalog index documents).indices.get? index =
        some ⟨ensureAll data.mapping documents, data.settings, data.documents.replay documents⟩ ∧
      (indexDocuments catalog index documents).aliases = catalog.aliases := by
  induction documents generalizing catalog data with
  | nil => exact ⟨found, rfl⟩
  | cons document rest ih =>
    obtain ⟨here, aliases⟩ := get?_indexDocument found document.1 document.2
    obtain ⟨later, unchanged⟩ := ih here
    exact ⟨later, unchanged.trans aliases⟩

theorem get?_createIndex {unicode : Unicode} (sound : catalog.Sound unicode) {name : String}
    (free : catalog.indexExists name = false)
    (unmatched : matchingIndexTemplates name catalog.indexTemplates = [])
    (mapping : IndexMapping) (settings aliases : SortedMap String Value) :
    (catalog.createIndex name (some mapping) (.object settings.entries) aliases).indices.get? name =
        some (.new mapping settings) ∧
      (catalog.createIndex name (some mapping) (.object settings.entries)
        aliases).aliasDefinitionsForIndex name = aliases := by
  have created := sound.get?_createIndexIfMissing free mapping (.object settings.entries) aliases
  have plain : (templateDefaultsForNewIndex []).merge mapping (.object settings.entries) aliases =
      ⟨mapping, settings, aliases⟩ := merge_default mapping settings aliases
  rw [unmatched, plain] at created
  exact created

end Restored

section Theorem

variable (encodings : Encodings) (serde : Serde) (unicode : Unicode)

def documentTerms (mapping : IndexMapping) (source : Value) : AnalyzedDocument :=
  analyzeDocument unicode mapping {
    docId := 0
    fields := indexedFieldsForDocument serde mapping source
    docId_fits := zero_fits }

/- The copy has the documents of the original in their order, its mapping with the analysis, its settings
and its aliases, and so its terms. -/
structure SameIndex (original copy : StoredIndex) (originalAliases copyAliases : SortedMap String Value)
    (count : Nat) : Prop where
  documents : copy.documents = original.documents
  mapping : copy.mapping = original.mapping
  settings : copy.settings = original.settings
  aliases : copyAliases = originalAliases
  count : count = copy.documents.entries.length
  terms : ∀ document ∈ original.documents.entries,
    documentTerms serde unicode copy.mapping document.2 =
      documentTerms serde unicode original.mapping document.2

/- The export of an index and its restore under a name both succeed, and make the same index. -/
def RoundTrips (catalog target : Catalog) (index name : String) : Prop :=
  ∃ original body count restored copy, catalog.indices.get? index = some original ∧
    exportIndex encodings catalog index = some (.ok body) ∧
    restoreIndexTarballForEsSnapshot encodings unicode target name body = .ok (count, restored) ∧
    restored.indices.get? name = some copy ∧
    SameIndex serde unicode original copy (catalog.aliasDefinitionsForIndex index)
      (restored.aliasDefinitionsForIndex name) count

/- What a tarball can keep: no analysis, fields that have a name and a type that has one, dates that
state their format, and documents all of whose fields are mapped. -/
structure Portable (data : StoredIndex) : Prop where
  analysis : data.mapping.analysis = .default
  printable : Printable data.mapping
  formats : FormatsStated data.mapping
  covered : ∀ document ∈ data.documents.entries, Covers data.mapping document.2

variable {encodings serde unicode} {catalog target : Catalog} {index name : String} {data : StoredIndex}

/-- An export succeeds, and its restore goes on just when the mapping is accepted. -/
theorem restore_export (found : catalog.indices.get? index = some data)
    (lossless : ∀ metadata ∈ indexMetadata catalog index,
      Lossless encodings index metadata data.documents.entries)
    (free : target.indexExists name = false) :
    ∃ body, exportIndex encodings catalog index = some (.ok body) ∧ ∀ count restored,
      restoreIndexTarballForEsSnapshot encodings unicode target name body = .ok (count, restored) ↔
        ∃ mapping, fromPropertiesValue unicode (mappingProperties data.mapping) = .ok mapping ∧
          count = data.documents.entries.length ∧
          restored = indexDocuments (target.createIndex name (some mapping)
            (.object data.settings.entries) (catalog.aliasDefinitionsForIndex index)) name
              data.documents.entries := by
  have described : indexMetadata catalog index = some ⟨catalog.aliasDefinitionsForIndex index,
      mappingValue data.mapping, .object data.settings.entries⟩ := by
    rw [indexMetadata, found]
    rfl
  have listed : documentsOf catalog index = data.documents.entries := by
    rw [documentsOf, found]
    rfl
  obtain ⟨body, built, parsed⟩ := @parseTarball_build encodings unicode _ _ _ (lossless _ described)
  refine ⟨body, ?_, ?_⟩
  · rw [exportIndex, described, listed, Option.map_some, built]
  · intro count restored
    have read : parseMappingValue unicode (mappingValue data.mapping) =
        (fromPropertiesValue unicode (mappingProperties data.mapping)).mapError fun e =>
          s!"mapping.json invalid: {e.message}" := rfl
    rw [restoreIndexTarballForEsSnapshot, if_neg (by rw [free]; exact Bool.false_ne_true), parsed, read]
    cases accepted : fromPropertiesValue unicode (mappingProperties data.mapping) with
    | error e =>
      constructor
      · exact nofun
      · rintro ⟨mapping, impossible, -⟩
        cases impossible
    | ok mapping =>
      constructor
      · intro done
        cases done
        exact ⟨mapping, rfl, rfl, rfl⟩
      · rintro ⟨_, same, rfl, rfl⟩
        cases same
        rfl

/-- A mapping that the documents make the original is the original, which states its formats. -/
theorem formats_of_ensureAll {mapping parsed : IndexMapping} (declared : Declared unicode mapping)
    (entries : parsed.fields.entries = resolvedFields mapping.fields.entries)
    {documents : List (String × Value)} (same : ensureAll parsed documents = mapping) :
    FormatsStated mapping := by
  have fields : parsed.fields = mapping.fields.map resolved := by
    apply SortedMap.eq_of_entries
    rw [entries, resolvedFields_eq_map]
    rfl
  have names (field : String) :
      (parsed.fields.get? field).isSome = (mapping.fields.get? field).isSome := by
    rw [fields, SortedMap.get?_map, Option.isSome_map]
  have covers : ∀ document ∈ documents, Covers parsed document.2 := by
    intro document member
    have covered : Covers (ensureAll parsed documents) document.2 :=
      covers_ensureAll documents document member
    rw [same] at covered
    exact covered.of_isSome fun field mapped => (names field).trans mapped
  rw [ensureAll_of_covers covers] at same
  rw [same] at entries
  exact (formatsStated_iff declared).mp entries.symm

theorem Portable.accepted
    (lowercase : ∀ name, unicode.toLowercase (analyzerText name) = analyzerText name)
    (portable : Portable data) (declared : Declared unicode data.mapping) :
    fromPropertiesValue unicode (mappingProperties data.mapping) = .ok data.mapping := by
  obtain ⟨parsed, accepted, entries, -⟩ := (replays_iff lowercase declared).mpr portable.printable
  have fields : parsed.fields = data.mapping.fields := by
    apply SortedMap.eq_of_entries
    rw [entries, (formatsStated_iff declared).mpr portable.formats]
  rw [accepted, analysis_of_parse accepted, fields, ← portable.analysis]

theorem round_trips_iff
    (lowercase : ∀ name, unicode.toLowercase (analyzerText name) = analyzerText name)
    (sound : catalog.Sound unicode) (opened : target.Sound unicode)
    (found : catalog.indices.get? index = some data)
    (lossless : ∀ metadata ∈ indexMetadata catalog index,
      Lossless encodings index metadata data.documents.entries)
    (free : target.indexExists name = false)
    (unmatched : matchingIndexTemplates name target.indexTemplates = []) :
    RoundTrips encodings serde unicode catalog target index name ↔ Portable data := by
  have declared := sound.declared index data found
  obtain ⟨body, exported, restores⟩ := @restore_export encodings unicode catalog target index name data found lossless free
  have copied (mapping : IndexMapping) := get?_indexDocuments
    (get?_createIndex opened free unmatched mapping data.settings
      (catalog.aliasDefinitionsForIndex index)).1 data.documents.entries
  constructor
  · rintro ⟨original, body', count, restored, copy, there, same, restored_ok, made, same_index⟩
    cases found.symm.trans there
    cases exported.symm.trans same
    obtain ⟨mapping, accepted, -, rfl⟩ := (restores count restored).mp restored_ok
    rw [(copied mapping).1] at made
    cases made
    have mapped : ensureAll mapping data.documents.entries = data.mapping := same_index.mapping
    have printable := printable_of_accepted accepted
    obtain ⟨replayed, again, entries, -⟩ := (replays_iff lowercase declared).mpr printable
    cases accepted.symm.trans again
    constructor
    · rw [← mapped, analysis_ensureAll, analysis_of_parse accepted]
    · exact printable
    · exact formats_of_ensureAll declared entries mapped
    · rw [← mapped]
      exact covers_ensureAll data.documents.entries
  · intro portable
    have mapped := ensureAll_of_covers portable.covered
    have replayed : (StoredIndex.new data.mapping data.settings).documents.replay
        data.documents.entries = data.documents := Ledger.replay_entries data.documents
    obtain ⟨made, aliases⟩ := copied data.mapping
    refine ⟨data, body, _, _, _, found, exported, (restores _ _).mpr
      ⟨data.mapping, portable.accepted lowercase declared, rfl, rfl⟩, made, ?_⟩
    constructor
    · exact replayed
    · exact mapped
    · rfl
    · have definitions := (get?_createIndex opened free unmatched data.mapping data.settings
        (catalog.aliasDefinitionsForIndex index)).2
      exact (Catalog.aliasDefinitions_congr aliases name).trans definitions
    · exact congrArg List.length (congrArg Ledger.entries replayed).symm
    · intro document _
      exact congrArg (fun mapping => documentTerms serde unicode mapping document.2) mapped

/-- After any history, an index that is exported comes back the same just when the tarball can keep it. -/
theorem snapshot_round_trip
    (lowercase : ∀ name, unicode.toLowercase (analyzerText name) = analyzerText name)
    (events targetEvents : List (CatalogEvent unicode))
    (found : (runEvents CatalogEvent.step events .empty).indices.get? index = some data)
    (lossless : ∀ metadata ∈ indexMetadata (runEvents CatalogEvent.step events .empty) index,
      Lossless encodings index metadata data.documents.entries)
    (free : (runEvents CatalogEvent.step targetEvents .empty).indexExists name = false)
    (unmatched : matchingIndexTemplates name
      (runEvents CatalogEvent.step targetEvents .empty).indexTemplates = []) :
    RoundTrips encodings serde unicode (runEvents CatalogEvent.step events .empty)
      (runEvents CatalogEvent.step targetEvents .empty) index name ↔ Portable data :=
  round_trips_iff lowercase (Catalog.run_sound events) (Catalog.run_sound targetEvents) found lossless
    free unmatched

end Theorem

section Examples

mutual

def prettyJson (indent : String) : Value → String
  | .array [] => "[]"
  | .array (value :: rest) =>
    "[\n" ++ prettyElements (indent ++ "  ") (value :: rest) ++ "\n" ++ indent ++ "]"
  | .object [] => "\x7b\x7d"
  | .object (entry :: rest) =>
    "\x7b\n" ++ prettyEntries (indent ++ "  ") (entry :: rest) ++ "\n" ++ indent ++ "\x7d"
  | value => encodeJson value

def prettyElements (indent : String) : List Value → String
  | [] => ""
  | [value] => indent ++ prettyJson indent value
  | value :: next :: rest =>
    indent ++ prettyJson indent value ++ ",\n" ++ prettyElements indent (next :: rest)

def prettyEntries (indent : String) : List (String × Value) → String
  | [] => ""
  | [(name, value)] => indent ++ "\"" ++ escapeJson name ++ "\": " ++ prettyJson indent value
  | (name, value) :: next :: rest =>
    indent ++ "\"" ++ escapeJson name ++ "\": " ++ prettyJson indent value ++ ",\n" ++
      prettyEntries indent (next :: rest)

end

def manifestValue (manifest : Manifest) : Value := .object
  [("format_version", .ofNat manifest.formatVersion), ("surch_version", .string manifest.surchVersion),
    ("index", .string manifest.index), ("doc_count", .ofNat manifest.docCount)]

def exportTexts (metadata : IndexMetadata) (documents : List (String × Value)) : List (String × Value) :=
  ([metadata.mapping, metadata.settings, aliasesToValue metadata.aliases].map fun value =>
      (prettyJson "" value, value)) ++
    documents.map fun document => (encodeJson (documentValue document), documentValue document)

def exportEncodings (index : String) (metadata : IndexMetadata) (documents : List (String × Value)) :
    Encodings where
  toVec value := .ok (utf8 (encodeJson value))
  toVecPretty value := .ok (utf8 (prettyJson "" value))
  fromSlice bytes :=
    match (fromUtf8 bytes).bind fun text => (exportTexts metadata documents).lookup text with
    | some value => .ok value
    | none => .error "expected value at line 1 column 1"
  manifestToVecPretty manifest := .ok (utf8 (prettyJson "" (manifestValue manifest)))
  manifestFromSlice bytes :=
    if fromUtf8 bytes = some (prettyJson "" (manifestValue (indexManifest index documents))) then
      .ok (indexManifest index documents)
    else .error "expected value at line 1 column 1"
  utf8Error _ := "invalid utf-8 sequence of 1 bytes from index 0"

theorem lookup_of_distinct {texts : List (String × Value)} (distinct : (texts.map Prod.fst).Nodup)
    {text : String} {value : Value} (listed : (text, value) ∈ texts) :
    texts.lookup text = some value := by
  induction texts with
  | nil => cases listed
  | cons entry rest ih =>
    obtain ⟨new, distinct⟩ := List.nodup_cons.mp distinct
    rcases List.mem_cons.mp listed with rfl | later
    · exact List.lookup_cons_self
    · have apart : text ≠ entry.1 := by
        rintro rfl
        exact new (List.mem_map.mpr ⟨_, later, rfl⟩)
      rw [List.lookup_cons, beq_false_of_ne apart]
      exact ih distinct later

theorem exportEncodings_lossless {index : String} {metadata : IndexMetadata}
    {documents : List (String × Value)}
    (distinct : ((exportTexts metadata documents).map Prod.fst).Nodup)
    (standing : ∀ document ∈ documents, IsLine isWhitespace (encodeJson (documentValue document)).toList) :
    Lossless (exportEncodings index metadata documents) index metadata documents := by
  have read {text : String} {value : Value} (listed : (text, value) ∈ exportTexts metadata documents) :
      (exportEncodings index metadata documents).fromSlice (utf8 text) = .ok value := by
    simp only [exportEncodings, fromUtf8_utf8, Option.bind_some, lookup_of_distinct distinct listed]
  have printed {value : Value}
      (listed : value ∈ [metadata.mapping, metadata.settings, aliasesToValue metadata.aliases]) :
      KeepsValue (exportEncodings index metadata documents) value :=
    ⟨_, rfl, read (List.mem_append_left _ (List.mem_map_of_mem listed))⟩
  constructor
  · exact ⟨_, rfl, by simp only [exportEncodings, fromUtf8_utf8, if_true]⟩
  · exact printed List.mem_cons_self
  · exact printed (by simp)
  · exact printed (by simp)
  · intro document member
    exact ⟨_, rfl, read (List.mem_append_right _ (List.mem_map_of_mem member)), standing document member⟩

instance (mapping : IndexMapping) : Decidable (Printable mapping) :=
  inferInstanceAs (Decidable (∀ entry ∈ mapping.fields.entries, _ ∧ _))

instance (mapping : FieldMapping) : Decidable (StatesFormat mapping) :=
  inferInstanceAs (Decidable (_ → _))

instance (mapping : IndexMapping) : Decidable (FormatsStated mapping) :=
  inferInstanceAs (Decidable (∀ entry ∈ mapping.fields.entries, _ ∧ ∀ sub ∈ entry.2.fields, _))

instance (mapping : IndexMapping) : ∀ source, Decidable (Covers mapping source)
  | .object entries => inferInstanceAs (Decidable (∀ entry ∈ entries, _))
  | .null => isTrue trivial
  | .bool _ => isTrue trivial
  | .number _ _ => isTrue trivial
  | .string _ => isTrue trivial
  | .array _ => isTrue trivial

instance (data : StoredIndex) : Decidable (Portable data) :=
  decidable_of_iff (data.mapping.analysis = .default ∧ Printable data.mapping ∧
      FormatsStated data.mapping ∧ ∀ document ∈ data.documents.entries, Covers data.mapping document.2)
    ⟨fun ⟨analysis, printable, formats, covered⟩ => ⟨analysis, printable, formats, covered⟩,
      fun portable => ⟨portable.analysis, portable.printable, portable.formats, portable.covered⟩⟩

/- The texts of an export stand apart, and every document on its line. -/
def Legible (catalog : Catalog) (index : String) : Prop :=
  ∀ metadata ∈ indexMetadata catalog index,
    (((exportTexts metadata (documentsOf catalog index)).map Prod.fst).map utf8).Nodup ∧
      ∀ document ∈ documentsOf catalog index,
        IsLine isWhitespace (encodeJson (documentValue document)).toList

instance (catalog : Catalog) (index : String) : Decidable (Legible catalog index) :=
  inferInstanceAs (Decidable (∀ metadata ∈ _, _ ∧ ∀ document ∈ _, _))

def deathProperties : Value := .object
  [("DATE_NAISSANCE", .object [("format", .string "yyyyMMdd"), ("type", .string "date")]),
    ("NOM", .object [("fields", .object [("auto", .object [("analyzer", .string "autocomplete"),
      ("type", .string "text")])]), ("type", .string "text")])]

def plainSettings : Value := .object [("number_of_shards", .number "1" false)]

def autocompleteSettings : Value := .object [("analysis", .object
  [("analyzer", .object [("autocomplete", .object [("filter", .array [.string "lowercase"]),
      ("tokenizer", .string "prefixes")])]),
    ("tokenizer", .object [("prefixes", .object [("max_gram", .number "20" false),
      ("min_gram", .number "2" false), ("type", .string "edge_ngram")])])])]

def deathEvents (settings : Value) : List (CatalogEvent .ascii) :=
  [.createIndex "deces" (createMapping deathProperties settings).toOption settings
      (.singleton "morts" (.object [("is_write_index", .bool true)])),
    .indexDocument "deces" "1" (.object [("NOM", .string "Martin")]),
    .indexDocument "deces" "2" (.object [("NOM", .string "Durand"), ("SEXE", .number "1" false)]),
    .deleteDocument "deces" "1",
    .createDocument "deces" "1" (.object [("NOM", .string "Martin")])]

def deaths (settings : Value) : Catalog := runEvents CatalogEvent.step (deathEvents settings) .empty

def sampleSerde : Serde := ⟨encodeJson, fun _ => none⟩

theorem deaths_lossless {settings : Value} (legible : Legible (deaths settings) "deces")
    {data : StoredIndex} (found : (deaths settings).indices.get? "deces" = some data)
    {metadata : IndexMetadata} (described : indexMetadata (deaths settings) "deces" = some metadata) :
    ∀ other ∈ indexMetadata (deaths settings) "deces",
      Lossless (exportEncodings "deces" metadata data.documents.entries) "deces" other
        data.documents.entries := by
  have listed : documentsOf (deaths settings) "deces" = data.documents.entries := by
    rw [documentsOf, found]
    rfl
  intro other same
  cases described.symm.trans same
  obtain ⟨distinct, standing⟩ := legible metadata described
  rw [listed] at distinct standing
  exact exportEncodings_lossless (List.Nodup.of_map utf8 distinct) standing

theorem snapshot_round_trip_deaths :
    ∃ encodings, RoundTrips encodings sampleSerde .ascii (deaths plainSettings) .empty "deces" "copie" := by
  have portable : ∀ data ∈ (deaths plainSettings).indices.get? "deces", Portable data := by
    decide +kernel
  have legible : Legible (deaths plainSettings) "deces" := by decide +kernel
  have there : ((deaths plainSettings).indices.get? "deces").isSome = true := by decide +kernel
  obtain ⟨data, found⟩ := Option.isSome_iff_exists.mp there
  have described : indexMetadata (deaths plainSettings) "deces" = some _ := congrArg (Option.map _) found
  exact ⟨_, (snapshot_round_trip ascii_lowercase (deathEvents plainSettings) [] found
    (deaths_lossless legible found described) rfl rfl).mpr (portable data found)⟩

/-- The analysis that an index was created with does not come back. -/
theorem not_snapshot_round_trip : ¬ ∀ (encodings : Encodings)
    (events targetEvents : List (CatalogEvent .ascii)) (index name : String) (data : StoredIndex),
    (runEvents CatalogEvent.step events .empty).indices.get? index = some data →
    (∀ metadata ∈ indexMetadata (runEvents CatalogEvent.step events .empty) index,
      Lossless encodings index metadata data.documents.entries) →
    (runEvents CatalogEvent.step targetEvents .empty).indexExists name = false →
    matchingIndexTemplates name (runEvents CatalogEvent.step targetEvents .empty).indexTemplates = [] →
    RoundTrips encodings sampleSerde .ascii (runEvents CatalogEvent.step events .empty)
      (runEvents CatalogEvent.step targetEvents .empty) index name := by
  intro always
  have analyzed : ∀ data ∈ (deaths autocompleteSettings).indices.get? "deces",
      data.mapping.analysis ≠ .default := by
    decide +kernel
  have legible : Legible (deaths autocompleteSettings) "deces" := by decide +kernel
  have there : ((deaths autocompleteSettings).indices.get? "deces").isSome = true := by decide +kernel
  obtain ⟨data, found⟩ := Option.isSome_iff_exists.mp there
  have described : indexMetadata (deaths autocompleteSettings) "deces" = some _ :=
    congrArg (Option.map _) found
  have lossless := deaths_lossless legible found described
  have round_trips := always _ (deathEvents autocompleteSettings) [] "deces" "copie" data found lossless
    rfl rfl
  have portable := (round_trips_iff ascii_lowercase (Catalog.run_sound _) (Catalog.run_sound [])
    found lossless rfl rfl).mp round_trips
  exact analyzed data found portable.analysis

end Examples

end Surch.Snapshot
