import Surch.Index.Acceptance

/-! What the analysis of a document yields for a field: its length is the number of its tokens, and it
has postings exactly when it has tokens, unless it is the path of a sub-field. -/
namespace Surch.Index
open Surch.Lib Surch.Postings

def tokenCount (unicode : Unicode) (mapping : IndexMapping) (fields : List (String × String))
    (field : String) : Nat :=
  ((fields.filter fun entry => entry.1 = field).map fun entry =>
    ((mapping.analyzer field).tokenStream unicode entry.2).length).sum

def AnalyzedDocument.postsIn (document : AnalyzedDocument) (field : String) : Bool :=
  document.postings.any fun posting => posting.1 = field

def IndexMapping.IsSubfieldPath (mapping : IndexMapping) (path : String) : Prop :=
  ∃ field fieldMapping, mapping.fields.get? field = some fieldMapping ∧
    ∃ sub ∈ fieldMapping.fields, subfieldPath field sub.1 = path

theorem tokenCount_cons (unicode : Unicode) (mapping : IndexMapping) (entry : String × String)
    (rest : List (String × String)) (field : String) :
    tokenCount unicode mapping (entry :: rest) field =
      (if entry.1 = field then ((mapping.analyzer field).tokenStream unicode entry.2).length else 0) +
        tokenCount unicode mapping rest field := by
  rw [tokenCount, List.filter_cons]
  by_cases here : entry.1 = field
  · rw [if_pos (decide_eq_true here), if_pos here, List.map_cons, List.sum_cons, tokenCount]
  · rw [if_neg (by simpa using here), if_neg here, Nat.zero_add, tokenCount]

theorem sum_collectTerms (position : Nat) (terms : AnalyzedTerms) (tokens : List Token) :
    ((collectTerms position terms tokens).entries.map fun entry => entry.2.length).sum =
      (terms.entries.map fun entry => entry.2.length).sum + tokens.length := by
  induction tokens generalizing position terms with
  | nil => rfl
  | cons token rest ih =>
    rw [collectTerms, ih, List.length_cons]
    have updated := SortedMap.sum_upsert List.length terms token.term fun positions =>
      positions.getD [] ++
        [((position + token.positionIncrement) % 2 ^ 32 + (2 ^ 32 - 1)) % 2 ^ 32]
    cases found : terms.get? token.term with
    | none =>
      simp only [found, Option.map_none, Option.getD_none, List.nil_append, List.length_singleton]
        at updated
      omega
    | some positions =>
      simp only [found, Option.map_some, Option.getD_some, List.length_append, List.length_singleton]
        at updated
      omega

theorem sum_analyzedTerms (unicode : Unicode) (analyzer : AnalyzerName) (value : String) :
    ((analyzedTerms unicode analyzer value).entries.map fun entry => entry.2.length).sum =
      (analyzer.tokenStream unicode value).length := by
  rw [analyzedTerms, sum_collectTerms]
  exact Nat.zero_add _

theorem analyzedTerms_nonempty (unicode : Unicode) (analyzer : AnalyzerName) (value : String) :
    (analyzedTerms unicode analyzer value).entries ≠ [] ↔
      (analyzer.tokenStream unicode value).length ≠ 0 := by
  constructor
  · intro some_terms none
    rw [List.length_eq_zero_iff] at none
    rw [analyzedTerms, none] at some_terms
    exact some_terms rfl
  · intro some_tokens none
    have total := sum_analyzedTerms unicode analyzer value
    rw [none] at total
    exact some_tokens total.symm

section Fields

variable {unicode : Unicode} {mapping : IndexMapping} {document : AnalyzedDocument} {field : String}

def lengthEntry (mapping : IndexMapping) (field : String) (tokens : Nat) : Option (Nat × Bool) :=
  if tokens = 0 then none else some (tokens, mapping.normsEnabled field)

theorem analyzeField_fieldLengths {tokens : Nat}
    (measured : document.fieldLengths.get? field = lengthEntry mapping field tokens)
    (entry : String × String) :
    (analyzeField unicode mapping document entry.1 entry.2).fieldLengths.get? field =
      lengthEntry mapping field (tokens + if entry.1 = field then
        ((mapping.analyzer field).tokenStream unicode entry.2).length else 0) := by
  simp only [analyzeField, sum_analyzedTerms]
  by_cases here : entry.1 = field
  · subst here
    have norms : ((mapping.fields.get? entry.1).all FieldMapping.normsEnabled) =
        mapping.normsEnabled entry.1 := by
      rw [IndexMapping.normsEnabled]
      cases mapping.fields.get? entry.1 <;> rfl
    have analyzer : ((mapping.fields.get? entry.1).map FieldMapping.analyzer).getD
        (AnalyzerName.defaultFor .text) = mapping.analyzer entry.1 := rfl
    rw [if_pos rfl, norms, analyzer]
    generalize ((mapping.analyzer entry.1).tokenStream unicode entry.2).length = more
    by_cases nothing : more = 0
    · rw [if_pos nothing, nothing, Nat.add_zero, measured]
    · rw [if_neg nothing, SortedMap.get?_upsert, if_pos rfl, measured]
      by_cases first : tokens = 0
      · simp [lengthEntry, first, nothing]
      · simp [lengthEntry, first]
  · rw [if_neg here, Nat.add_zero, ← measured]
    split
    · rfl
    · rw [SortedMap.get?_upsert, if_neg (Ne.symm here)]

theorem analyzeField_postsIn (own : ¬ mapping.IsSubfieldPath field) (entry : String × String) :
    (∃ posting ∈ (analyzeField unicode mapping document entry.1 entry.2).postings, posting.1 = field) ↔
      (∃ posting ∈ document.postings, posting.1 = field) ∨
        (if entry.1 = field then ((mapping.analyzer field).tokenStream unicode entry.2).length
          else 0) ≠ 0 := by
  have analyzer : ((mapping.fields.get? entry.1).map FieldMapping.analyzer).getD
      (AnalyzerName.defaultFor .text) = mapping.analyzer entry.1 := rfl
  simp only [analyzeField, analyzer, List.mem_append, or_and_right, exists_or]
  have none_below : ¬ ∃ posting ∈ (((mapping.fields.get? entry.1).map FieldMapping.fields).getD []).map
      (fun sub => (subfieldPath entry.1 sub.1,
        subfieldTerms unicode sub.2 entry.2 mapping.analysis)) |>.flatMap
      (fun listed => listed.2.entries.map fun term => (listed.1, term)),
      posting.1 = field := by
    rintro ⟨posting, member, same⟩
    obtain ⟨below, listed, member⟩ := List.mem_flatMap.mp member
    obtain ⟨sub, inside, rfl⟩ := List.mem_map.mp listed
    obtain ⟨term, -, rfl⟩ := List.mem_map.mp member
    cases found : mapping.fields.get? entry.1 with
    | none =>
      rw [found] at inside
      cases inside
    | some fieldMapping =>
      rw [found] at inside
      exact own ⟨entry.1, fieldMapping, found, sub, inside, same⟩
  have mine : (∃ posting ∈ (analyzedTerms unicode (mapping.analyzer entry.1) entry.2).entries.map
      (fun term => (entry.1, term)), posting.1 = field) ↔
      (if entry.1 = field then ((mapping.analyzer field).tokenStream unicode entry.2).length
        else 0) ≠ 0 := by
    by_cases here : entry.1 = field
    · subst here
      rw [if_pos rfl, ← analyzedTerms_nonempty]
      constructor
      · rintro ⟨posting, member, -⟩
        obtain ⟨term, inside, -⟩ := List.mem_map.mp member
        exact List.ne_nil_of_mem inside
      · intro nonempty
        obtain ⟨term, inside⟩ := List.exists_mem_of_ne_nil _ nonempty
        exact ⟨_, List.mem_map_of_mem inside, rfl⟩
    · rw [if_neg here]
      refine ⟨?_, fun absurd_zero => absurd rfl absurd_zero⟩
      rintro ⟨posting, member, same⟩
      obtain ⟨term, -, rfl⟩ := List.mem_map.mp member
      exact absurd same here
  exact or_congr (or_iff_left none_below) mine

end Fields

section Documents

variable (unicode : Unicode) (mapping : IndexMapping) (document : Document) (field : String)

theorem analyzeDocument_fieldLengths :
    (analyzeDocument unicode mapping document).fieldLengths.get? field =
      lengthEntry mapping field (tokenCount unicode mapping document.fields field) := by
  have fold : ∀ (fields : List (String × String)) (analyzed : AnalyzedDocument) (tokens : Nat),
      analyzed.fieldLengths.get? field = lengthEntry mapping field tokens →
      (fields.foldl
        (fun analyzed entry => analyzeField unicode mapping analyzed entry.1 entry.2)
        analyzed).fieldLengths.get? field =
        lengthEntry mapping field (tokens + tokenCount unicode mapping fields field) := by
    intro fields
    induction fields with
    | nil => exact fun _ _ measured => measured
    | cons entry rest ih =>
      intro analyzed tokens measured
      rw [List.foldl_cons, ih _ _ (analyzeField_fieldLengths measured entry), tokenCount_cons,
        Nat.add_assoc]
  exact (fold document.fields _ 0 rfl).trans (by rw [Nat.zero_add])

variable {field}

theorem analyzeDocument_postsIn (own : ¬ mapping.IsSubfieldPath field) :
    (analyzeDocument unicode mapping document).postsIn field = true ↔
      tokenCount unicode mapping document.fields field ≠ 0 := by
  have fold : ∀ (fields : List (String × String)) (analyzed : AnalyzedDocument),
      (∃ posting ∈ (fields.foldl
        (fun analyzed entry => analyzeField unicode mapping analyzed entry.1 entry.2)
        analyzed).postings, posting.1 = field) ↔
        (∃ posting ∈ analyzed.postings, posting.1 = field) ∨
          tokenCount unicode mapping fields field ≠ 0 := by
    intro fields
    induction fields with
    | nil => intro analyzed; simp [tokenCount]
    | cons entry rest ih =>
      intro analyzed
      rw [List.foldl_cons, ih, analyzeField_postsIn own, tokenCount_cons, or_assoc]
      refine or_congr_right ?_
      omega
  rw [AnalyzedDocument.postsIn, List.any_eq_true]
  simp only [decide_eq_true_eq]
  rw [analyzeDocument, fold]
  simp

end Documents

end Surch.Index
