import Surch.Index.Filing

/-! Which analysis the terms of a path come from: the chain that indexing chooses for a field or a
sub-field, and the chain that a query on the path chooses. -/
namespace Surch.Index
open Surch.Lib Surch.Postings

/- An analysis a mapping leads to; a custom name that cannot be resolved leads to none. -/
inductive Chain where
  | resolved (analyzer : ResolvedAnalyzer)
  | normalizer
  | nothing
deriving DecidableEq

def Chain.builtin (analyzer : AnalyzerName) : Chain := .resolved (.builtin analyzer)

def Chain.ofOption : Option ResolvedAnalyzer → Chain
  | some analyzer => .resolved analyzer
  | none => .nothing

def Chain.terms (unicode : Unicode) : Chain → String → List String
  | .resolved analyzer, text => analyzer.terms unicode text
  | .normalizer, text => (unicode.normalizerTokens text).map Token.term
  | .nothing, _ => []

section Query

variable (unicode : Unicode) (mapping : IndexMapping)

def IndexMapping.queryChain (path : String) : Chain :=
  match mapping.resolveField path with
  | none => .builtin (mapping.analyzer path)
  | some field =>
    match field.customSearchAnalyzer, field.searchAnalyzer, field.customAnalyzer with
    | some name, _, _ => .ofOption (mapping.analysis.resolveAnalyzer unicode name)
    | none, some builtin, _ => .builtin builtin
    | none, none, some name => .ofOption (mapping.analysis.resolveAnalyzer unicode name)
    | none, none, none => .builtin (mapping.analyzer path)

theorem queryChain_terms (value path : String) :
    normalizedTermsForField unicode value path mapping =
      (mapping.queryChain unicode path).terms unicode value := by
  have custom : ∀ name, mapping.customTerms unicode name value =
      (Chain.ofOption (mapping.analysis.resolveAnalyzer unicode name)).terms unicode value := by
    intro name
    rw [IndexMapping.customTerms]
    cases mapping.analysis.resolveAnalyzer unicode name with
    | none => rfl
    | some analyzer => rfl
  rw [normalizedTermsForField, IndexMapping.customSearchTermsForField, IndexMapping.queryChain]
  cases mapping.resolveField path with
  | none => rfl
  | some field =>
    obtain ⟨_, _, customAnalyzer, searchAnalyzer, customSearchAnalyzer, _, _, _, _, _⟩ := field
    cases customSearchAnalyzer with
    | some name => exact custom name
    | none =>
      cases searchAnalyzer with
      | some builtin => rfl
      | none =>
        cases customAnalyzer with
        | some name => exact custom name
        | none => rfl

end Query

section Collected

@[simp] theorem keys_no_terms : (SortedMap.empty : AnalyzedTerms).keys = [] := rfl

theorem mem_keys_collectTerms (position : Nat) (terms : AnalyzedTerms) (tokens : List Token)
    (term : String) :
    term ∈ (collectTerms position terms tokens).keys ↔
      term ∈ terms.keys ∨ term ∈ tokens.map Token.term := by
  induction tokens generalizing position terms with
  | nil => simp [collectTerms]
  | cons token rest ih =>
    simp only [collectTerms, ih, SortedMap.mem_keys_upsert, List.map_cons, List.mem_cons]
    tauto

theorem mem_keys_enumeratedTerms (terms : List String) (term : String) :
    term ∈ (enumeratedTerms terms).keys ↔ term ∈ terms := by
  have fold : ∀ (pairs : List (String × Nat)) (collected : AnalyzedTerms),
      term ∈ (pairs.foldl (fun (collected : AnalyzedTerms) pair =>
        collected.upsert pair.1 fun positions => positions.getD [] ++ [pair.2 % 2 ^ 32])
          collected).keys ↔
        term ∈ collected.keys ∨ term ∈ pairs.map Prod.fst := by
    intro pairs
    induction pairs with
    | nil => simp
    | cons pair rest ih =>
      intro collected
      simp only [List.foldl_cons, ih, SortedMap.mem_keys_upsert, List.map_cons, List.mem_cons]
      tauto
  refine (fold terms.zipIdx .empty).trans ?_
  simp

theorem mem_keys_analyzedTerms (unicode : Unicode) (analyzer : AnalyzerName)
    (value term : String) :
    term ∈ (analyzedTerms unicode analyzer value).keys ↔ term ∈ analyzer.terms unicode value := by
  simp [analyzedTerms, mem_keys_collectTerms, AnalyzerName.terms]

end Collected

section Paths

theorem subfieldPath_toList (field subName : String) :
    (subfieldPath field subName).toList = field.toList ++ '.' :: subName.toList := by
  simp [subfieldPath]

theorem subfieldPath_ne (field subName : String) : subfieldPath field subName ≠ field := by
  intro same
  have lengths := congrArg (fun path => path.toList.length) same
  simp [subfieldPath_toList] at lengths

theorem subfieldPath_inj {field subName subName' : String}
    (same : subfieldPath field subName = subfieldPath field subName') : subName = subName' := by
  have characters := congrArg String.toList same
  simp only [subfieldPath_toList, List.append_cancel_left_eq, List.cons.injEq, true_and]
    at characters
  exact String.toList_inj.mp characters

theorem rsplitOnce_subfieldPath (field : String) {subName : String}
    (dotless : '.' ∉ subName.toList) :
    rsplitOnce (subfieldPath field subName) '.' = some (field, subName) := by
  have plain : ∀ c ∈ subName.toList.reverse, decide (c ≠ '.') = true := by
    intro c member
    have distinct : c ≠ '.' := ne_of_mem_of_not_mem (List.mem_reverse.mp member) dotless
    simp [distinct]
  have reversed : (subfieldPath field subName).toList.reverse =
      subName.toList.reverse ++ '.' :: field.toList.reverse := by
    simp [subfieldPath_toList]
  simp only [rsplitOnce, reversed, List.takeWhile_append_of_pos plain,
    List.dropWhile_append_of_pos plain]
  simp

theorem rsplitOnce_mem {text : String} {separator : Char} {parts : String × String}
    (split : rsplitOnce text separator = some parts) : separator ∈ text.toList := by
  simp only [rsplitOnce, List.mem_reverse] at split
  by_contra missing
  simp [missing] at split

end Paths

/- Where terms are posted: under a field's own name, or under the path of a sub-field. -/
inductive Place where
  | field (name : String)
  | subfield (parent subName : String) (sub : FieldMapping)

namespace Place

def source : Place → String
  | .field name => name
  | .subfield parent _ _ => parent

def path : Place → String
  | .field name => name
  | .subfield parent subName _ => subfieldPath parent subName

/- Every field name is a place, declared or not; a sub-field has to be declared. -/
def Declared (mapping : IndexMapping) : Place → Prop
  | .field _ => True
  | .subfield parent subName sub =>
    ∃ field, mapping.fields.get? parent = some field ∧ (subName, sub) ∈ field.fields

def analyzed (unicode : Unicode) (mapping : IndexMapping) : Place → String → AnalyzedTerms
  | .field name, value => analyzedTerms unicode (mapping.analyzer name) value
  | .subfield _ _ sub, value => subfieldTerms unicode sub value mapping.analysis

def chain (unicode : Unicode) (mapping : IndexMapping) : Place → Chain
  | .field name => .builtin (mapping.analyzer name)
  | .subfield _ _ sub =>
    if sub.fieldType = .keyword then
      match sub.normalizer with
      | some _ => .normalizer
      | none => .builtin .keyword
    else
      match sub.customAnalyzer.bind (mapping.analysis.resolveAnalyzer unicode) with
      | some analyzer => .resolved analyzer
      | none => .builtin sub.analyzer

variable (unicode : Unicode) (mapping : IndexMapping)

theorem mem_keys_analyzed (place : Place) (value term : String) :
    term ∈ (place.analyzed unicode mapping value).keys ↔
      term ∈ (place.chain unicode mapping).terms unicode value := by
  cases place with
  | field name => exact mem_keys_analyzedTerms unicode _ value term
  | subfield parent subName sub =>
    simp only [analyzed, chain, subfieldTerms]
    split
    · cases sub.normalizer with
      | some name => simp [mem_keys_collectTerms, Chain.terms]
      | none =>
        simp [mem_keys_collectTerms, Chain.terms, Chain.builtin, ResolvedAnalyzer.terms,
          AnalyzerName.terms, AnalyzerName.tokenStream]
    · cases sub.customAnalyzer.bind (mapping.analysis.resolveAnalyzer unicode) with
      | some analyzer => exact mem_keys_enumeratedTerms _ term
      | none => exact mem_keys_analyzedTerms unicode _ value term

end Place

section Posted

variable (unicode : Unicode) (mapping : IndexMapping)

def valuePostings (field value : String) : List (String × String × List Nat) :=
  (((mapping.fields.get? field).map FieldMapping.fields).getD []).flatMap
      (fun (subName, sub) =>
        (subfieldTerms unicode sub value mapping.analysis).entries.map fun (term, positions) =>
          (subfieldPath field subName, term, positions)) ++
    (analyzedTerms unicode (mapping.analyzer field) value).entries.map fun (term, positions) =>
      (field, term, positions)

theorem analyzeField_postings (document : AnalyzedDocument) (field value : String) :
    (analyzeField unicode mapping document field value).postings =
      document.postings ++ valuePostings unicode mapping field value := by
  simp only [analyzeField, valuePostings, List.flatMap_map, List.append_assoc]
  rfl

theorem analyzeDocument_postings (document : Document) :
    (analyzeDocument unicode mapping document).postings =
      document.fields.flatMap fun (field, value) => valuePostings unicode mapping field value := by
  have fold : ∀ (fields : List (String × String)) (analyzed : AnalyzedDocument),
      (fields.foldl (fun analyzed (field, value) =>
        analyzeField unicode mapping analyzed field value) analyzed).postings =
        analyzed.postings ++ fields.flatMap fun (field, value) =>
          valuePostings unicode mapping field value := by
    intro fields
    induction fields with
    | nil => simp
    | cons field rest ih =>
      intro analyzed
      simp only [List.foldl_cons, ih, analyzeField_postings, List.flatMap_cons, List.append_assoc]
  exact fold document.fields _

theorem mem_valuePostings (field value path term : String) :
    (∃ positions, (path, term, positions) ∈ valuePostings unicode mapping field value) ↔
      ∃ place : Place, place.Declared mapping ∧ place.source = field ∧ place.path = path ∧
        term ∈ (place.chain unicode mapping).terms unicode value := by
  have listed : ∀ (terms : AnalyzedTerms) (t : String),
      t ∈ terms.keys ↔ ∃ positions, (t, positions) ∈ terms.entries := by
    simp [SortedMap.keys]
  simp only [← Place.mem_keys_analyzed, valuePostings, List.mem_append, List.mem_flatMap,
    List.mem_map, Prod.mk.injEq, Prod.exists]
  constructor
  · rintro ⟨positions, ⟨subName, sub, declared, t, p, member, rfl, rfl, rfl⟩ |
      ⟨t, p, member, rfl, rfl, rfl⟩⟩
    · cases found : mapping.fields.get? field with
      | none => simp [found] at declared
      | some fieldMapping =>
        simp only [found, Option.map_some, Option.getD_some] at declared
        exact ⟨.subfield field subName sub, ⟨fieldMapping, found, declared⟩, rfl, rfl,
          (listed _ _).mpr ⟨p, member⟩⟩
    · exact ⟨.field field, trivial, rfl, rfl, (listed _ _).mpr ⟨p, member⟩⟩
  · rintro ⟨place, declared, rfl, rfl, member⟩
    obtain ⟨positions, inside⟩ := (listed _ _).mp member
    refine ⟨positions, ?_⟩
    cases place with
    | field name => exact .inr ⟨term, positions, inside, rfl, rfl, rfl⟩
    | subfield parent subName sub =>
      obtain ⟨fieldMapping, found, here⟩ := declared
      exact .inl ⟨subName, sub, by simpa [Place.source, found] using here, term, positions, inside,
        rfl, rfl, rfl⟩

/-- A document posts, under each path, the terms of the chains of the places on that path. -/
theorem mem_analyzeDocument_postings (document : Document) (path term : String) :
    (∃ positions, (path, term, positions) ∈
        (analyzeDocument unicode mapping document).postings) ↔
      ∃ (place : Place) (value : String), place.Declared mapping ∧ place.path = path ∧
        (place.source, value) ∈ document.fields ∧
        term ∈ (place.chain unicode mapping).terms unicode value := by
  simp only [analyzeDocument_postings, List.mem_flatMap, Prod.exists]
  constructor
  · rintro ⟨positions, field, value, member, posted⟩
    obtain ⟨place, declared, rfl, here, inside⟩ :=
      (mem_valuePostings unicode mapping field value path term).mp ⟨positions, posted⟩
    exact ⟨place, value, declared, here, member, inside⟩
  · rintro ⟨place, value, declared, here, member, inside⟩
    obtain ⟨positions, posted⟩ := (mem_valuePostings unicode mapping place.source value path
      term).mpr ⟨place, declared, rfl, here, inside⟩
    exact ⟨positions, _, _, member, posted⟩

end Posted

end Surch.Index
