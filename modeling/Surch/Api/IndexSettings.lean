import Surch.Api.Mappings

/-! The settings of an index as JSON: the analysis they declare, and how settings are merged. -/
namespace Surch.Api
open Surch.Lib Surch.Index

deriving instance DecidableEq for AnalysisSettings

section Analysis

/- The loop over a part of `analysis`, whose entries are objects; `parse` may skip one. -/
def parsePartEntries {α : Type} (part : String)
    (parse : String → List (String × Value) → MappingResult (Option α)) :
    SortedMap String α → List (String × Value) → MappingResult (SortedMap String α)
  | parsed, [] => .ok parsed
  | parsed, (name, definition) :: rest => do
    let definition ← orError (.analysisEntryNotObject part name) definition.asObject
    let found ← parse name definition
    match found with
    | none => parsePartEntries part parse parsed rest
    | some value => parsePartEntries part parse (parsed.upsert name fun _ => value) rest

def parsePart {α : Type} (part : String)
    (parse : String → List (String × Value) → MappingResult (Option α)) :
    Option Value → MappingResult (SortedMap String α)
  | none => .ok .empty
  | some value => do
    let entries ← orError (.analysisSectionNotObject part) value.asObject
    parsePartEntries part parse .empty entries

def readFilterChain (definition : List (String × Value)) (name part : String) :
    MappingResult (List String) :=
  match definition.lookup "filter" with
  | some (.array values) => .ok (values.filterMap Value.asStr)
  | some _ => .error (.analysisFilterNotArray part name)
  | none => .ok []

def parseGramBound (name bound : String) (definition : List (String × Value)) : MappingResult Nat :=
  orError (.edgeNgramMissingBound name bound) ((definition.lookup bound).bind Value.asU64)

def parseTokenizer (name : String) (definition : List (String × Value)) :
    MappingResult (Option EdgeNgramTokenizerDefinition) :=
  if ((definition.lookup "type").bind Value.asStr).getD "" ≠ "edge_ngram" then .ok none
  else do
    let minGram ← parseGramBound name "min_gram" definition
    let maxGram ← parseGramBound name "max_gram" definition
    return some {
      minGram
      maxGram
      tokenChars := ((definition.lookup "token_chars").bind Value.asArray).elim []
        fun values => values.filterMap Value.asStr }

def parseAnalyzerDefinition (name : String) (definition : List (String × Value)) :
    MappingResult (Option AnalyzerDefinition) := do
  let filter ← readFilterChain definition name "analyzer"
  return some { tokenizer := ((definition.lookup "tokenizer").bind Value.asStr).getD "standard", filter }

def parseNormalizerDefinition (name : String) (definition : List (String × Value)) :
    MappingResult (Option NormalizerDefinition) := do
  let filter ← readFilterChain definition name "normalizer"
  return some { kind := ((definition.lookup "type").bind Value.asStr).getD "custom", filter }

def fromIndexSettingsValue (value : Value) : MappingResult AnalysisSettings := do
  let settings ← orError .settingsNotObject value.asObject
  match settings.lookup "analysis" with
  | none => return .default
  | some value => do
    let analysis ← orError .analysisNotObject value.asObject
    let tokenizers ← parsePart "tokenizer" parseTokenizer (analysis.lookup "tokenizer")
    let analyzers ← parsePart "analyzer" parseAnalyzerDefinition (analysis.lookup "analyzer")
    let normalizers ← parsePart "normalizer" parseNormalizerDefinition (analysis.lookup "normalizer")
    return { tokenizers, analyzers, normalizers }

end Analysis

section Accepted

variable (unicode : Unicode)

/- A mapping whose fields a definition declares, with some analysis. -/
structure AcceptedMapping where
  mapping : IndexMapping
  accepted : ∃ properties, fromPropertiesValue unicode properties = .ok ⟨mapping.fields, .default⟩

variable {unicode}

theorem analysis_of_parse {properties : Value} {mapping : IndexMapping}
    (parsed : fromPropertiesValue unicode properties = .ok mapping) :
    mapping = ⟨mapping.fields, .default⟩ := by
  obtain ⟨_, _, parsed⟩ := except_bind_ok.mp parsed
  obtain ⟨_, _, parsed⟩ := except_bind_ok.mp parsed
  cases parsed
  rfl

/- The mapping of a request: its properties, with the analysis that its settings declare. -/
def createMapping (properties settings : Value) : MappingResult (AcceptedMapping unicode) :=
  match parsed : fromPropertiesValue unicode properties with
  | .error error => .error error
  | .ok mapping => do
    let analysis ← fromIndexSettingsValue settings
    return ⟨{ mapping with analysis }, properties, parsed.trans (congrArg Except.ok (analysis_of_parse parsed))⟩

end Accepted

section Merging

mutual

def mergeSettings : Value → Value → Value
  | .object target, .object source => .object (mergeSettingsEntries target source)
  | target, _ => target

/- Objects under one key are merged; any other value replaces what was there. -/
def mergeSettingsEntries (target : List (String × Value)) :
    List (String × Value) → List (String × Value)
  | [] => target
  | (key, value) :: rest =>
    let merged := match target.lookup key, value with
      | some (.object inner), .object _ => mergeSettings (.object inner) value
      | _, _ => value
    mergeSettingsEntries (SortedMap.upsertEntries key (fun _ => merged) target) rest

end

example : mergeSettings (.object [("index", .object [("a", .null)])])
    (.object [("index", .object [("b", .bool true)]), ("refresh", .null)]) =
      .object [("index", .object [("a", .null), ("b", .bool true)]), ("refresh", .null)] := rfl

theorem mergeSettingsEntries_sorted {target : List (String × Value)}
    (sorted : (target.map Prod.fst).Pairwise (· < ·)) (source : List (String × Value)) :
    ((mergeSettingsEntries target source).map Prod.fst).Pairwise (· < ·) := by
  induction source generalizing target with
  | nil => exact sorted
  | cons entry rest ih => exact ih (SortedMap.upsertEntries_sorted _ _ sorted)

theorem mergeSettingsEntries_above {source : List (String × Value)}
    (sorted : (source.map Prod.fst).Pairwise (· < ·)) (target : SortedMap String Value)
    (above : ∀ key ∈ target.keys, ∀ entry ∈ source, key < entry.1) :
    mergeSettingsEntries target.entries source = target.entries ++ source := by
  induction source generalizing target with
  | nil => exact (List.append_nil _).symm
  | cons entry rest ih =>
    obtain ⟨key, value⟩ := entry
    obtain ⟨least, sorted⟩ := List.pairwise_cons.mp sorted
    have before : ∀ x ∈ target.keys, x < key := fun x member => above x member _ List.mem_cons_self
    have missing : target.entries.lookup key = none := by
      apply (target.get?_eq_none_iff key).mpr
      exact fun member => lt_irrefl _ (before key member)
    have last := target.upsert_last before fun _ => value
    have later := ih sorted (target.upsert key fun _ => value) (by
      intro x member other tail
      rcases (SortedMap.mem_keys_upsert _ _ _ _).mp member with rfl | old
      · exact least other.1 (List.mem_map_of_mem tail)
      · exact above x old other (List.mem_cons_of_mem _ tail))
    rw [mergeSettingsEntries]
    · apply later.trans
      rw [last, List.append_assoc]
      rfl
    · intro inner _ found
      rw [missing] at found
      cases found

theorem mergeSettings_empty (settings : SortedMap String Value) :
    mergeSettings (.object []) (.object settings.entries) = .object settings.entries := by
  rw [mergeSettings]
  exact congrArg Value.object (mergeSettingsEntries_above settings.sorted .empty
    fun _ member => absurd member List.not_mem_nil)

end Merging

end Surch.Api
