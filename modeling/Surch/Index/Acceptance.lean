import Surch.Index.Ranges

/-! Which batches of documents an index accepts. -/
namespace Surch.Index
open Surch.Lib Surch.Postings

variable {Digest : Type} {settings : Settings Digest}

theorem isBlank_append (s t : String) : isBlank (s ++ t) = (isBlank s && isBlank t) := by
  simp only [isBlank, String.toList_append, List.all_append]

theorem subfieldPath_visible (field subName : String) : isBlank (subfieldPath field subName) = false := by
  have dot : isBlank "." = false := by decide
  rw [subfieldPath, isBlank_append, isBlank_append, dot, Bool.and_false, Bool.false_and]

/- The name of a posting's field is not blank. -/
def NamedPostings (document : AnalyzedDocument) : Prop :=
  ∀ posting ∈ document.postings, isBlank posting.1 = false

theorem analyzeField_named (unicode : Unicode) (mapping : IndexMapping) {document : AnalyzedDocument}
    (named : NamedPostings document) {field : String} (visible : isBlank field = false)
    (value : String) : NamedPostings (analyzeField unicode mapping document field value) := by
  intro posting member
  simp only [analyzeField, List.mem_append, List.mem_flatMap, List.mem_map] at member
  rcases member with (member | ⟨⟨path, terms⟩, ⟨⟨subName, subMapping⟩, _, made⟩, member⟩) | member
  · exact named posting member
  · obtain ⟨entry, _, rfl⟩ := member
    cases made
    exact subfieldPath_visible field subName
  · obtain ⟨entry, _, rfl⟩ := member
    exact visible

theorem analyzeDocument_named (unicode : Unicode) (mapping : IndexMapping) {document : Document}
    (visible : ∀ field ∈ document.fields, isBlank field.1 = false) :
    NamedPostings (analyzeDocument unicode mapping document) := by
  have fold : ∀ (fields : List (String × String)) (analyzed : AnalyzedDocument),
      (∀ field ∈ fields, isBlank field.1 = false) → NamedPostings analyzed →
      NamedPostings (fields.foldl
        (fun analyzed entry => analyzeField unicode mapping analyzed entry.1 entry.2) analyzed) := by
    intro fields
    induction fields with
    | nil => exact fun _ _ named => named
    | cons field rest ih =>
      intro analyzed visible named
      exact ih _ (fun other member => visible other (List.mem_cons_of_mem _ member))
        (analyzeField_named unicode mapping named (visible field List.mem_cons_self) field.2)
  exact fold _ _ visible (by simp [NamedPostings])

/- What keeps a document out of an index: a blank field name, or a term that is blank. -/
def Document.Visible (unicode : Unicode) (mapping : IndexMapping) (document : Document) : Prop :=
  (∀ field ∈ document.fields, isBlank field.1 = false) ∧
    ∀ posting ∈ (analyzeDocument unicode mapping document).postings, isBlank posting.2.1 = false

instance (unicode : Unicode) (mapping : IndexMapping) (document : Document) :
    Decidable (document.Visible unicode mapping) :=
  inferInstanceAs (Decidable (_ ∧ _))

namespace DocumentIndex

variable {index : DocumentIndex Digest}

theorem recordPostings_ok_iff (docId : Nat) (builder : PostingsBuilder)
    (postings : List (String × String × List Nat)) :
    (∃ next, recordPostings docId builder postings = (.ok (), next)) ↔
      ∀ posting ∈ postings, isBlank posting.1 = false ∧ isBlank posting.2.1 = false := by
  induction postings generalizing builder with
  | nil => simp [recordPostings]
  | cons posting rest ih =>
    obtain ⟨field, term, positions⟩ := posting
    rw [List.forall_mem_cons, ← ih (builder.push field term ⟨docId, freqFromPositions positions⟩),
      recordPostings, PostingsBuilder.add]
    by_cases blank : isBlank field = true
    · simp [blank]
    · by_cases blank' : isBlank term = true
      · simp [blank, blank']
      · simp [blank, blank']

theorem mergeAnalyzed_ok_iff (document : AnalyzedDocument) :
    (∃ next, index.mergeAnalyzed document = (.ok (), next)) ↔
      ∀ posting ∈ document.postings, isBlank posting.1 = false ∧ isBlank posting.2.1 = false := by
  rw [← recordPostings_ok_iff document.docId index.postingsBuilder]
  constructor
  · rintro ⟨next, merged⟩
    obtain ⟨builder, accepted, _⟩ := mergeAnalyzed_ok merged
    exact ⟨builder, accepted⟩
  · rintro ⟨builder, accepted⟩
    have pushed : recordPostings document.docId
        ((index.recordSubfieldValues document).recordPrefixes document).postingsBuilder
        document.postings = (.ok (), builder) := accepted
    refine ⟨{ (index.recordSubfieldValues document).recordPrefixes document with
      postingsBuilder := builder }.recordLengths document, ?_⟩
    simp only [mergeAnalyzed, pushed]

theorem mergeAll_ok_iff (documents : List AnalyzedDocument) :
    (∃ next, index.mergeAll documents = (.ok (), next)) ↔
      ∀ document ∈ documents, ∀ posting ∈ document.postings,
        isBlank posting.1 = false ∧ isBlank posting.2.1 = false := by
  induction documents generalizing index with
  | nil => simp [mergeAll]
  | cons document rest ih =>
    rw [List.forall_mem_cons, mergeAll]
    rw [← @mergeAnalyzed_ok_iff _ index document]
    cases merged : index.mergeAnalyzed document with
    | mk result next =>
      cases result with
      | error error => simp
      | ok _ => simpa using ih

/-- A batch is accepted when its documents are new, distinct and visible. -/
theorem addDocuments_ok_iff (documents : List Document) (mapping : IndexMapping) (deferred : Bool)
    (files : Files) :
    (∃ next, index.addDocuments settings documents mapping deferred files = (.ok (), next)) ↔
      (∀ document ∈ documents, index.active.docBase ≤ document.docId ∧
        index.active.liveDocs.contains (document.docId - index.active.docBase) = false ∧
        document.Visible settings.unicode mapping) ∧
      (documents.map Document.docId).Nodup := by
  have merges := @mergeAll_ok_iff _ index (documents.map (analyzeDocument settings.unicode mapping))
  rw [List.forall_mem_map] at merges
  have valid := @validateFrom_ok_iff _ index [] documents
  unfold addDocuments
  rw [validate]
  cases checked : index.validateFrom [] documents with
  | error error =>
    rw [checked] at valid
    simp only [reduceCtorEq, Prod.mk.injEq, false_and, exists_false, false_iff, not_and]
    intro all distinct
    have passed := valid.mpr ⟨fun document member =>
      ⟨(all document member).1, (all document member).2.1, by simp, (all document member).2.2.1⟩,
      distinct⟩
    cases passed
  | ok _ =>
    rw [checked] at valid
    obtain ⟨checks, distinct⟩ := valid.mp rfl
    have named : ∀ document ∈ documents,
        NamedPostings (analyzeDocument settings.unicode mapping document) := fun document member =>
      analyzeDocument_named settings.unicode mapping (checks document member).2.2.2
    have visible : (∀ document ∈ documents, index.active.docBase ≤ document.docId ∧
        index.active.liveDocs.contains (document.docId - index.active.docBase) = false ∧
        document.Visible settings.unicode mapping) ↔ ∀ document ∈ documents,
        ∀ posting ∈ (analyzeDocument settings.unicode mapping document).postings,
          isBlank posting.1 = false ∧ isBlank posting.2.1 = false := by
      refine forall₂_congr fun document member => ?_
      obtain ⟨low, dead, _, names⟩ := checks document member
      constructor
      · rintro ⟨_, _, _, terms⟩ posting found
        exact ⟨named document member posting found, terms posting found⟩
      · intro all
        exact ⟨low, dead, names, fun posting found => (all posting found).2⟩
    rw [visible, ← merges, and_iff_left distinct]
    cases merged : index.mergeAll (documents.map (analyzeDocument settings.unicode mapping)) with
    | mk result next =>
      cases result with
      | error error => simp
      | ok _ => cases deferred <;> simp

end DocumentIndex

end Surch.Index
