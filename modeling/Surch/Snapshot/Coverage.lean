import Surch.Api.CatalogRuns

/-! Documents whose fields are all mapped: an index maps the fields of what it is given, and no request
takes a field away. -/
namespace Surch.Snapshot
open Surch.Lib Surch.Index Surch.Api

section Coverage

def Covers (mapping : IndexMapping) : Value → Prop
  | .object entries => ∀ entry ∈ entries, (mapping.fields.get? entry.1).isSome = true
  | _ => True

variable {mapping : IndexMapping}

theorem ensureFields_cons (entry : String × Value) (rest : List (String × Value)) :
    ensureFields mapping (.object (entry :: rest)) =
      ensureFields (ensureFields mapping (.object [entry])) (.object rest) := rfl

theorem ensureFields_singleton (field : String) (value : Value) :
    ensureFields mapping (.object [(field, value)]) =
      if (mapping.fields.get? field).isSome then mapping
      else { mapping with
        fields := mapping.fields.upsert field fun _ => .new (inferFieldType value) none } := rfl

theorem ensureFields_of_covers {source : Value} (covers : Covers mapping source) :
    ensureFields mapping source = mapping := by
  cases source with
  | object entries =>
    induction entries with
    | nil => rfl
    | cons entry rest ih =>
      have here := covers entry List.mem_cons_self
      rw [ensureFields_cons, ensureFields_singleton, if_pos here]
      exact ih fun other member => covers other (List.mem_cons_of_mem _ member)
  | _ => rfl

/-- A document takes no field away. -/
theorem isSome_ensureFields {name : String} (mapped : (mapping.fields.get? name).isSome = true)
    (source : Value) : ((ensureFields mapping source).fields.get? name).isSome = true := by
  cases source with
  | object entries =>
    induction entries generalizing mapping with
    | nil => exact mapped
    | cons entry rest ih =>
      rw [ensureFields_cons]
      apply ih
      rw [ensureFields_singleton]
      split
      · exact mapped
      · rw [SortedMap.get?_upsert]
        split
        · rfl
        · exact mapped
  | _ => exact mapped

theorem covers_ensureFields (source : Value) : Covers (ensureFields mapping source) source := by
  cases source with
  | object entries =>
    induction entries generalizing mapping with
    | nil => exact fun _ member => absurd member List.not_mem_nil
    | cons entry rest ih =>
      intro other member
      rw [ensureFields_cons]
      rcases List.mem_cons.mp member with rfl | later
      · apply isSome_ensureFields
        rw [ensureFields_singleton]
        split
        · rename_i mapped
          exact mapped
        · rw [SortedMap.get?_upsert, if_pos rfl]
          rfl
      · exact ih other later
  | _ => exact trivial

theorem Covers.of_isSome {other : IndexMapping} {source : Value} (covers : Covers mapping source)
    (grown : ∀ name, (mapping.fields.get? name).isSome = true → (other.fields.get? name).isSome = true) :
    Covers other source := by
  cases source with
  | object entries => exact fun entry member => grown entry.1 (covers entry member)
  | _ => exact trivial

theorem Covers.ensureFields {source : Value} (covers : Covers mapping source) (other : Value) :
    Covers (ensureFields mapping other) source :=
  covers.of_isSome fun _ mapped => isSome_ensureFields mapped other

def ensureAll (mapping : IndexMapping) (documents : List (String × Value)) : IndexMapping :=
  documents.foldl (fun mapping document => Surch.Api.ensureFields mapping document.2) mapping

theorem ensureAll_of_covers {documents : List (String × Value)}
    (covers : ∀ document ∈ documents, Covers mapping document.2) :
    ensureAll mapping documents = mapping := by
  induction documents with
  | nil => rfl
  | cons document rest ih =>
    rw [ensureAll, List.foldl_cons, ensureFields_of_covers (covers document List.mem_cons_self)]
    exact ih fun other member => covers other (List.mem_cons_of_mem _ member)

theorem covers_ensureAll (documents : List (String × Value)) :
    ∀ document ∈ documents, Covers (ensureAll mapping documents) document.2 := by
  have kept {mapping : IndexMapping} (later : List (String × Value)) {source : Value}
      (covers : Covers mapping source) : Covers (ensureAll mapping later) source := by
    induction later generalizing mapping with
    | nil => exact covers
    | cons document rest ih => exact ih (covers.ensureFields document.2)
  induction documents generalizing mapping with
  | nil => exact fun _ member => absurd member List.not_mem_nil
  | cons document rest ih =>
    intro other member
    rcases List.mem_cons.mp member with rfl | later
    · exact kept rest (covers_ensureFields other.2)
    · exact ih other later

theorem analysis_ensureFields (source : Value) :
    (ensureFields mapping source).analysis = mapping.analysis := by
  cases source with
  | object entries =>
    induction entries generalizing mapping with
    | nil => rfl
    | cons entry rest ih =>
      rw [ensureFields_cons, ih, ensureFields_singleton]
      split <;> rfl
  | _ => rfl

theorem analysis_ensureAll (documents : List (String × Value)) :
    (ensureAll mapping documents).analysis = mapping.analysis := by
  induction documents generalizing mapping with
  | nil => rfl
  | cons document rest ih => exact ih.trans (analysis_ensureFields document.2)

/-- A mapping that is merged takes no field away. -/
theorem isSome_mergeFields {name : String} (mapped : (mapping.fields.get? name).isSome = true)
    {newFields : List (String × FieldMapping)} {merged : IndexMapping}
    (joined : MemoryStore.mergeFields mapping newFields = some merged) :
    (merged.fields.get? name).isSome = true := by
  induction newFields generalizing mapping with
  | nil =>
    cases joined
    exact mapped
  | cons entry rest ih =>
    have next : ((mapping.fields.upsert entry.1 fun _ => entry.2).get? name).isSome = true := by
      by_cases same : name = entry.1 <;> simp_all
    rw [MemoryStore.mergeFields] at joined
    split at joined
    · split at joined
      · cases joined
      · exact ih next joined
    · exact ih next joined

end Coverage

section Runs

variable {unicode : Unicode} {catalog : Catalog}

/- Every index maps the fields of its documents. -/
def Covered (catalog : Catalog) : Prop :=
  ∀ index data, catalog.indices.get? index = some data →
    ∀ document ∈ data.documents.entries, Covers data.mapping document.2

/- An operation that some request makes: none puts a mapping in the place of another. -/
def Requested : CatalogEvent unicode → Prop
  | .setMapping _ _ => False
  | _ => True

instance (e : CatalogEvent unicode) : Decidable (Requested e) := by
  unfold Requested
  rcases e with ⟨⟩ <;> infer_instance

theorem Covered.put (covered : Covered catalog) (index : String) {data : StoredIndex}
    (covers : ∀ document ∈ data.documents.entries, Covers data.mapping document.2) :
    Covered (catalog.put index data) := by
  intro other data' found
  rw [Catalog.get?_put] at found
  split at found
  · cases found
    exact covers
  · exact covered other data' found

theorem Covered.modify (covered : Covered catalog) (index : String) {change : StoredIndex → StoredIndex}
    (kept : ∀ data, (∀ document ∈ data.documents.entries, Covers data.mapping document.2) →
      ∀ document ∈ (change data).documents.entries, Covers (change data).mapping document.2) :
    Covered (catalog.modify index change) := by
  unfold Catalog.modify
  split
  · exact covered
  · rename_i data found
    exact covered.put index (kept data (covered index data found))

theorem Covered.createIndexIfMissing (covered : Covered catalog) (index : String) (mapping : IndexMapping)
    (settings : Value) (aliases : SortedMap String Value) :
    Covered (catalog.createIndexIfMissing index mapping settings aliases) := by
  unfold Catalog.createIndexIfMissing
  split
  · exact covered
  · unfold Covered
    rw [(Catalog.indices_insertAliases index _).1]
    exact covered.put index fun _ member => by cases member

theorem Covered.indexDocument (covered : Covered catalog) (index id : String) (source : Value) :
    Covered (catalog.indexDocument index id source) := by
  apply (covered.createIndexIfMissing index _ _ _).modify
  intro data covers document member
  rcases Ledger.mem_put member with rfl | old
  · exact covers_ensureFields source
  · exact (covers document old).ensureFields source

theorem Covered.deleteDocument (covered : Covered catalog) (index id : String) :
    Covered (catalog.deleteDocument index id) := by
  apply covered.modify
  exact fun data covers document member => covers document (List.mem_filter.mp member).1

theorem Covered.createDocument (covered : Covered catalog) (index id : String) (source : Value) :
    Covered (catalog.createDocument index id source).2 := by
  unfold Catalog.createDocument
  dsimp only
  split
  · exact covered.createIndexIfMissing index _ _ _
  · exact covered.indexDocument index id source

theorem Covered.applyDocumentWrite (covered : Covered catalog) (operation : DocumentWriteOperation) :
    Covered (catalog.applyDocumentWrite operation).2 := by
  cases operation with
  | index index id source status => exact covered.indexDocument index id source
  | create index id source =>
    rw [Catalog.applyDocumentWrite_create]
    exact covered.createDocument index id source
  | delete index id => exact covered.deleteDocument index id

theorem Covered.applyDocumentWrites (covered : Covered catalog) (operations : List DocumentWriteOperation) :
    Covered (catalog.applyDocumentWrites operations) := by
  unfold Catalog.applyDocumentWrites
  induction operations generalizing catalog with
  | nil => exact covered
  | cons operation rest ih => exact ih (covered.applyDocumentWrite operation)

/-- What requests do leaves every field of every document mapped. -/
theorem Covered.step (covered : Covered catalog) {e : CatalogEvent unicode} (requested : Requested e) :
    Covered (e.step catalog) := by
  cases e with
  | createIndex index mapping settings aliases => exact covered.createIndexIfMissing index _ _ _
  | indexDocument index id source => exact covered.indexDocument index id source
  | createDocument index id source => exact covered.createDocument index id source
  | deleteDocument index id => exact covered.deleteDocument index id
  | applyDocumentWrites operations => exact covered.applyDocumentWrites operations
  | setMapping index mapping => cases requested
  | mergeFieldMappings index mapping =>
    apply covered.modify
    intro data covers
    split
    · exact covers
    · rename_i merged joined
      exact fun document member =>
        (covers document member).of_isSome fun _ mapped => isSome_mergeFields mapped joined
  | deleteIndex index =>
    intro other data found
    unfold CatalogEvent.step Catalog.deleteIndex at found
    rw [SortedMap.get?_erase] at found
    split at found
    · cases found
    · exact covered other data found
  | addAlias index aliasName definition =>
    unfold CatalogEvent.step
    dsimp only
    unfold Catalog.addAliasWithDefinition
    split
    · exact covered
    · exact covered
  | removeAlias index aliasName =>
    unfold CatalogEvent.step
    dsimp only
    unfold Catalog.removeAlias
    split
    · exact covered
    · exact covered
  | putIndexTemplate name indexPatterns composedOf priority template =>
    unfold CatalogEvent.step
    dsimp only
    unfold Catalog.putIndexTemplate
    split
    · exact covered
    · exact covered
  | deleteIndexTemplate name => exact covered
  | putComponentTemplate name template => exact covered
  | deleteComponentTemplate name => exact covered

theorem run_covered {events : List (CatalogEvent unicode)} (requested : ∀ e ∈ events, Requested e) :
    Covered (runEvents CatalogEvent.step events .empty) := by
  have run (catalog : Catalog) (covered : Covered catalog) :
      Covered (runEvents CatalogEvent.step events catalog) := by
    induction events generalizing catalog with
    | nil => exact covered
    | cons e rest ih =>
      exact ih (fun other member => requested other (List.mem_cons_of_mem _ member)) _
        (covered.step (requested e List.mem_cons_self))
  exact run .empty fun _ _ found => by cases found

end Runs

end Surch.Snapshot
