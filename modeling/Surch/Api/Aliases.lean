import Surch.Api.CatalogRuns

/-! Names that stand for indices: what a write and a search through a name resolve it to, over any run
of the public operations. -/
namespace Surch.Api
open Surch.Lib Surch.Index

def isWriteIndex (definition : Value) : Bool :=
  ((definition.asObject.bind fun entries => entries.lookup "is_write_index").bind Value.asBool).getD false

namespace Catalog

variable (catalog : Catalog)

def aliasExists (aliasName : String) : Bool := (catalog.aliases.get? aliasName).isSome

def indicesForAlias (aliasName : String) : List String :=
  ((catalog.aliases.get? aliasName).map SortedMap.keys).getD []

/- An index goes before an alias. An alias of several indices needs one that is marked for writes. -/
def resolveWriteTarget (target : String) : Except String String :=
  if catalog.indexExists target then .ok target
  else match catalog.aliases.get? target with
    | none => .ok target
    | some indices => match indices.keys with
      | [index] => .ok index
      | _ => match (indices.entries.filter fun entry => isWriteIndex entry.2).map Prod.fst with
        | [index] => .ok index
        | _ => .error
          s!"no write index is defined for alias [{target}], target alias must point to a single index"

def resolveIndex (target : String) : List String :=
  if catalog.indexExists target then [target] else catalog.indicesForAlias target

def Stands (aliasName index : String) : Prop := index ∈ catalog.indicesForAlias aliasName

def Occupied : Prop := ∀ aliasName indices, catalog.aliases.get? aliasName = some indices → indices.keys ≠ []

def NamesApart : Prop := ∀ name, catalog.indexExists name → catalog.aliasExists name = false

variable {catalog}

section Resolution

theorem stands_iff (aliasName index : String) : catalog.Stands aliasName index ↔
    ∃ indices, catalog.aliases.get? aliasName = some indices ∧ (indices.get? index).isSome := by
  unfold Stands indicesForAlias
  cases catalog.aliases.get? aliasName with
  | none => simp
  | some indices => simp [SortedMap.mem_keys_iff, Option.isSome_iff_exists]

theorem Sound.stands {unicode : Unicode} (sound : catalog.Sound unicode) {aliasName index : String}
    (stands : catalog.Stands aliasName index) : catalog.indexExists index = true := by
  obtain ⟨indices, found, defined⟩ := (stands_iff aliasName index).mp stands
  exact sound.aliased aliasName indices found index defined

/-- A write goes to the name itself, if it is no alias that counts, or to an index of the alias. -/
theorem resolveWriteTarget_ok {target index : String}
    (resolved : catalog.resolveWriteTarget target = .ok index) :
    index = target ∧ (catalog.indexExists target = true ∨ catalog.aliasExists target = false) ∨
      catalog.indexExists target = false ∧ catalog.Stands target index := by
  unfold resolveWriteTarget at resolved
  split at resolved
  · rename_i there
    cases resolved
    exact .inl ⟨rfl, .inl there⟩
  · rename_i free
    have free := Bool.eq_false_iff.mpr free
    split at resolved
    · rename_i unknown
      cases resolved
      exact .inl ⟨rfl, .inr (by rw [aliasExists, unknown]; rfl)⟩
    · rename_i indices found
      have stands (member : index ∈ indices.keys) : catalog.Stands target index := by
        simpa [Stands, indicesForAlias, found] using member
      split at resolved
      · rename_i only
        cases resolved
        exact .inr ⟨free, stands (by simp [only])⟩
      · split at resolved
        · rename_i marked
          cases resolved
          have member : index ∈ (indices.entries.filter fun entry => isWriteIndex entry.2).map Prod.fst := by
            simp [marked]
          obtain ⟨entry, kept, rfl⟩ := List.mem_map.mp member
          exact .inr ⟨free, stands (List.mem_map_of_mem (List.mem_filter.mp kept).1)⟩
        · cases resolved

/-- Where a name is an index and an alias, both resolutions take the index. -/
theorem index_first {name : String} (there : catalog.indexExists name = true) :
    catalog.resolveWriteTarget name = .ok name ∧ catalog.resolveIndex name = [name] := by
  simp [resolveWriteTarget, resolveIndex, there]

end Resolution

section Growth

@[simp] theorem indexExists_put (index other : String) (data : StoredIndex) :
    (catalog.put index data).indexExists other = (catalog.indexExists other || decide (other = index)) := by
  by_cases same : other = index <;> simp [indexExists, same]

@[simp] theorem indexExists_insertAliases (index other : String) (aliases : SortedMap String Value) :
    (catalog.insertAliases index aliases).indexExists other = catalog.indexExists other := by
  rw [indexExists, (indices_insertAliases index aliases).1, indexExists]

@[simp] theorem indexExists_modify (index other : String) (change : StoredIndex → StoredIndex) :
    (catalog.modify index change).indexExists other = catalog.indexExists other := by
  by_cases same : other = index <;> simp [indexExists, same]

@[simp] theorem indexExists_deleteIndex (index other : String) :
    (catalog.deleteIndex index).indexExists other = (catalog.indexExists other && decide (other ≠ index)) := by
  by_cases same : other = index <;> simp [indexExists, deleteIndex, same]

@[simp] theorem aliases_modify (index : String) (change : StoredIndex → StoredIndex) :
    (catalog.modify index change).aliases = catalog.aliases := by
  unfold modify
  split <;> rfl

theorem stands_insertAlias (index aliasName other name : String) (definition : Value) :
    (catalog.insertAlias index aliasName definition).Stands other name ↔
      catalog.Stands other name ∨ other = aliasName ∧ name = index := by
  unfold Stands indicesForAlias insertAlias
  by_cases same : other = aliasName
  · subst same
    cases found : catalog.aliases.get? other with
    | none => simp [found, SortedMap.mem_keys_upsert, (SortedMap.get?_eq_none_iff _ _).mp (SortedMap.get?_empty name)]
    | some indices => simp [found, SortedMap.mem_keys_upsert, or_comm]
  · simp [same]

@[simp] theorem aliasExists_insertAlias (index aliasName other : String) (definition : Value) :
    (catalog.insertAlias index aliasName definition).aliasExists other =
      (catalog.aliasExists other || decide (other = aliasName)) := by
  by_cases same : other = aliasName <;> simp [aliasExists, insertAlias, same]

theorem stands_insertAliases (index other name : String) (aliases : SortedMap String Value) :
    (catalog.insertAliases index aliases).Stands other name ↔
      catalog.Stands other name ∨ other ∈ aliases.keys ∧ name = index := by
  unfold insertAliases SortedMap.keys
  generalize aliases.entries = entries
  induction entries generalizing catalog with
  | nil => simp
  | cons entry rest ih =>
    simp only [List.foldl_cons, ih, stands_insertAlias, List.map_cons, List.mem_cons]
    tauto

theorem aliasExists_insertAliases (index other : String) (aliases : SortedMap String Value) :
    (catalog.insertAliases index aliases).aliasExists other =
      (catalog.aliasExists other || decide (other ∈ aliases.keys)) := by
  unfold insertAliases SortedMap.keys
  generalize aliases.entries = entries
  induction entries generalizing catalog with
  | nil => simp
  | cons entry rest ih =>
    simp only [List.foldl_cons, ih, aliasExists_insertAlias, List.map_cons, List.mem_cons, Bool.decide_or,
      Bool.or_assoc]

/- What writes to these indices do to the names: the indices are there, and no alias is lost. -/
structure Wrote (catalog after : Catalog) (written : List String) : Prop where
  indexExists : ∀ other,
    after.indexExists other = (catalog.indexExists other || decide (other ∈ written))
  stands : ∀ aliasName index, catalog.Stands aliasName index → after.Stands aliasName index
  known : ∀ aliasName, catalog.aliasExists aliasName = true → after.aliasExists aliasName = true

theorem Wrote.refl : Wrote catalog catalog [] := by
  constructor
  · simp
  · exact fun _ _ stands => stands
  · exact fun _ known => known

theorem Wrote.trans {middle after : Catalog} {first second : List String}
    (wrote : Wrote catalog middle first) (later : Wrote middle after second) :
    Wrote catalog after (first ++ second) := by
  constructor
  · intro other
    simp [later.indexExists, wrote.indexExists, Bool.or_assoc]
  · intro aliasName index stands
    exact later.stands aliasName index (wrote.stands aliasName index stands)
  · intro aliasName known
    exact later.known aliasName (wrote.known aliasName known)

theorem Wrote.kept {after : Catalog} {written : List String} (wrote : Wrote catalog after written)
    {index : String} (there : catalog.indexExists index = true) : after.indexExists index = true := by
  rw [wrote.indexExists, there, Bool.true_or]

theorem Wrote.made {after : Catalog} {written : List String} (wrote : Wrote catalog after written)
    {index : String} (member : index ∈ written) : after.indexExists index = true := by
  rw [wrote.indexExists, decide_eq_true member, Bool.or_true]

theorem wrote_modify (index : String) (change : StoredIndex → StoredIndex) :
    Wrote catalog (catalog.modify index change) [] := by
  constructor
  · simp
  · simp [Stands, indicesForAlias]
  · simp [aliasExists]

theorem wrote_createIndexIfMissing (index : String) (mapping : IndexMapping) (settings : Value)
    (aliases : SortedMap String Value) :
    Wrote catalog (catalog.createIndexIfMissing index mapping settings aliases) [index] := by
  unfold createIndexIfMissing
  split
  · rename_i there
    constructor
    · intro other
      by_cases same : other = index <;> simp [same, there]
    · exact fun _ _ stands => stands
    · exact fun _ known => known
  · constructor
    · simp
    · intro aliasName other stands
      rw [stands_insertAliases]
      exact .inl stands
    · intro aliasName known
      rw [aliasExists_insertAliases, Bool.or_eq_true]
      exact .inl known

theorem wrote_indexDocument (index id : String) (source : Value) :
    Wrote catalog (catalog.indexDocument index id source) [index] :=
  (wrote_createIndexIfMissing index _ _ _).trans (wrote_modify index _)

theorem wrote_createDocument (index id : String) (source : Value) :
    Wrote catalog (catalog.createDocument index id source).2 [index] := by
  unfold createDocument
  dsimp only
  split
  · exact wrote_createIndexIfMissing index _ _ _
  · exact wrote_indexDocument index id source

end Growth

end Catalog

def DocumentWriteOperation.written : DocumentWriteOperation → List String
  | .index name _ _ _ => [name]
  | .create name _ _ => [name]
  | .delete _ _ => []

namespace Catalog

variable {catalog : Catalog}

section Writes

theorem wrote_applyDocumentWrite (operation : DocumentWriteOperation) :
    Wrote catalog (catalog.applyDocumentWrite operation).2 operation.written := by
  cases operation with
  | index index id source status => exact wrote_indexDocument index id source
  | create index id source =>
    rw [applyDocumentWrite_create]
    exact wrote_createDocument index id source
  | delete index id => exact wrote_modify index _

theorem wrote_applyDocumentWrites (operations : List DocumentWriteOperation) :
    Wrote catalog (catalog.applyDocumentWrites operations)
      (operations.flatMap DocumentWriteOperation.written) := by
  unfold applyDocumentWrites
  induction operations generalizing catalog with
  | nil => exact .refl
  | cons operation rest ih => exact (wrote_applyDocumentWrite operation).trans ih

/-- What is written through a name is searched through that name, whatever else is written along with
it, as long as all of it goes where names resolve to. -/
theorem Wrote.found {unicode : Unicode} {after : Catalog} {written : List String}
    (wrote : Wrote catalog after written) (sound : catalog.Sound unicode)
    (targets : ∀ name ∈ written, ∃ other, catalog.resolveWriteTarget other = .ok name)
    {target index : String} (resolved : catalog.resolveWriteTarget target = .ok index)
    (member : index ∈ written) : index ∈ after.resolveIndex target := by
  unfold resolveIndex
  rcases resolveWriteTarget_ok resolved with ⟨rfl, -⟩ | ⟨free, stands⟩
  · simp [wrote.indexExists, member]
  · have unwritten : target ∉ written := by
      intro taken
      obtain ⟨other, made⟩ := targets target taken
      rcases resolveWriteTarget_ok made with ⟨rfl, there | unknown⟩ | ⟨-, there⟩
      · simp [free] at there
      · obtain ⟨indices, found, -⟩ := (stands_iff target index).mp stands
        simp [aliasExists, found] at unknown
      · simp [sound.stands there] at free
    rw [wrote.indexExists, free, decide_eq_false unwritten]
    exact wrote.stands target index stands

theorem hasDocument_indexDocument (index id : String) (source : Value) :
    (catalog.indexDocument index id source).hasDocument index id = true := by
  have there : (catalog.ensureIndex index).indexExists index = true :=
    (wrote_createIndexIfMissing index _ _ _).made List.mem_cons_self
  obtain ⟨data, found⟩ := Option.isSome_iff_exists.mp there
  simp only [indexDocument, hasDocument, get?_modify, found, StoredIndex.upsertDocument, Ledger.contains,
    Ledger.put, Ledger.keys, Ledger.keys_putEntries, if_true, Option.map_some, Option.getD_some,
    decide_eq_true_eq]
  split
  · assumption
  · simp

theorem hasDocument_createDocument (index id : String) (source : Value) :
    (catalog.createDocument index id source).2.hasDocument index id = true := by
  unfold createDocument
  dsimp only
  split
  · assumption
  · exact hasDocument_indexDocument index id source

end Writes

section Occupied

theorem empty_occupied : Occupied .empty := fun _ _ found => by cases found

theorem Occupied.congr (occupied : catalog.Occupied) {after : Catalog}
    (same : after.aliases = catalog.aliases) : after.Occupied := by
  unfold Occupied
  rw [same]
  exact occupied

theorem Occupied.insertAlias (occupied : catalog.Occupied) (index aliasName : String)
    (definition : Value) : (catalog.insertAlias index aliasName definition).Occupied := by
  intro other indices found
  unfold Catalog.insertAlias at found
  rw [SortedMap.get?_upsert] at found
  split at found
  · cases found
    exact List.ne_nil_of_mem ((SortedMap.mem_keys_upsert _ _ _ _).mpr (.inl rfl))
  · exact occupied other indices found

theorem Occupied.insertAliases (occupied : catalog.Occupied) (index : String)
    (aliases : SortedMap String Value) : (catalog.insertAliases index aliases).Occupied := by
  unfold Catalog.insertAliases
  generalize aliases.entries = entries
  induction entries generalizing catalog with
  | nil => exact occupied
  | cons entry rest ih => exact ih (occupied.insertAlias index entry.1 entry.2)

theorem Occupied.createIndexIfMissing (occupied : catalog.Occupied) (index : String)
    (mapping : IndexMapping) (settings : Value) (aliases : SortedMap String Value) :
    (catalog.createIndexIfMissing index mapping settings aliases).Occupied := by
  unfold Catalog.createIndexIfMissing
  split
  · exact occupied
  · apply insertAliases
    exact occupied

theorem Occupied.indexDocument (occupied : catalog.Occupied) (index id : String) (source : Value) :
    (catalog.indexDocument index id source).Occupied := by
  apply (occupied.createIndexIfMissing index .default (.object []) .empty).congr
  exact aliases_modify index _

theorem Occupied.createDocument (occupied : catalog.Occupied) (index id : String) (source : Value) :
    (catalog.createDocument index id source).2.Occupied := by
  unfold Catalog.createDocument
  dsimp only
  split
  · exact occupied.createIndexIfMissing index _ _ _
  · exact occupied.indexDocument index id source

theorem Occupied.applyDocumentWrite (occupied : catalog.Occupied) (operation : DocumentWriteOperation) :
    (catalog.applyDocumentWrite operation).2.Occupied := by
  cases operation with
  | index index id source status => exact occupied.indexDocument index id source
  | create index id source =>
    rw [applyDocumentWrite_create]
    exact occupied.createDocument index id source
  | delete index id => exact occupied.congr (aliases_modify index _)

theorem Occupied.applyDocumentWrites (occupied : catalog.Occupied)
    (operations : List DocumentWriteOperation) : (catalog.applyDocumentWrites operations).Occupied := by
  unfold Catalog.applyDocumentWrites
  induction operations generalizing catalog with
  | nil => exact occupied
  | cons operation rest ih => exact ih (occupied.applyDocumentWrite operation)

theorem deleteIndex_occupied (index : String) : (catalog.deleteIndex index).Occupied := by
  intro aliasName indices found
  have listed := (SortedMap.get?_eq_some_iff _ _ _).mp found
  simpa [SortedMap.keys] using (List.mem_filter.mp listed).2

theorem Occupied.removeAlias (occupied : catalog.Occupied) (index aliasName : String) :
    (catalog.removeAlias index aliasName).Occupied := by
  unfold Catalog.removeAlias
  split
  · exact occupied
  · intro other indices found
    dsimp only at found
    split at found
    · rw [SortedMap.get?_erase] at found
      split at found
      · cases found
      · exact occupied other indices found
    · rename_i left
      rw [SortedMap.get?_upsert] at found
      split at found
      · cases found
        simpa [SortedMap.keys] using left
      · exact occupied other indices found

theorem Occupied.step {unicode : Unicode} (occupied : catalog.Occupied) (e : CatalogEvent unicode) :
    (e.step catalog).Occupied := by
  cases e with
  | createIndex index mapping settings aliases => exact occupied.createIndexIfMissing index _ _ _
  | indexDocument index id source => exact occupied.indexDocument index id source
  | createDocument index id source => exact occupied.createDocument index id source
  | deleteDocument index id => exact occupied.congr (aliases_modify index _)
  | applyDocumentWrites operations => exact occupied.applyDocumentWrites operations
  | setMapping index mapping =>
    apply Occupied.congr _ (aliases_modify index _)
    split
    · exact occupied
    · exact occupied
  | mergeFieldMappings index mapping => exact occupied.congr (aliases_modify index _)
  | deleteIndex index => exact deleteIndex_occupied index
  | addAlias index aliasName definition =>
    unfold CatalogEvent.step
    dsimp only
    unfold addAliasWithDefinition
    split
    · exact occupied.insertAlias index aliasName definition
    · exact occupied
  | removeAlias index aliasName => exact occupied.removeAlias index aliasName
  | putIndexTemplate name indexPatterns composedOf priority template =>
    unfold CatalogEvent.step
    dsimp only
    unfold putIndexTemplate
    split
    · exact occupied
    · exact occupied
  | deleteIndexTemplate name => exact occupied
  | putComponentTemplate name template => exact occupied
  | deleteComponentTemplate name => exact occupied

theorem run_occupied {unicode : Unicode} (events : List (CatalogEvent unicode)) :
    (runEvents CatalogEvent.step events .empty).Occupied := by
  have run (catalog : Catalog) (occupied : catalog.Occupied) :
      (runEvents CatalogEvent.step events catalog).Occupied := by
    induction events generalizing catalog with
    | nil => exact occupied
    | cons e rest ih => exact ih (e.step catalog) (occupied.step e)
  exact run .empty empty_occupied

end Occupied

section Coherence

variable {unicode : Unicode}

/-- After any run every alias stands for indices that are there, and what is written through a name is
found by a search through the same name. -/
theorem alias_resolution_coherent (events : List (CatalogEvent unicode)) :
    let catalog := runEvents CatalogEvent.step events .empty
    (∀ aliasName, catalog.aliasExists aliasName → catalog.indicesForAlias aliasName ≠ [] ∧
      ∀ index ∈ catalog.indicesForAlias aliasName, catalog.indexExists index) ∧
    ∀ target index, catalog.resolveWriteTarget target = .ok index →
      (∀ id source, index ∈ (catalog.indexDocument index id source).resolveIndex target ∧
        (catalog.indexDocument index id source).hasDocument index id) ∧
      (∀ id source, index ∈ (catalog.createDocument index id source).2.resolveIndex target ∧
        (catalog.createDocument index id source).2.hasDocument index id) ∧
      ∀ operations : List DocumentWriteOperation,
        (∀ name ∈ operations.flatMap DocumentWriteOperation.written,
          ∃ other, catalog.resolveWriteTarget other = .ok name) →
        index ∈ operations.flatMap DocumentWriteOperation.written →
          index ∈ (catalog.applyDocumentWrites operations).resolveIndex target := by
  intro catalog
  have sound : catalog.Sound unicode := run_sound events
  have occupied : catalog.Occupied := run_occupied events
  constructor
  · intro aliasName known
    obtain ⟨indices, found⟩ := Option.isSome_iff_exists.mp known
    constructor
    · simpa [indicesForAlias, found] using occupied aliasName indices found
    · exact fun index stands => sound.stands stands
  · intro target index resolved
    have only : ∀ name ∈ [index], ∃ other, catalog.resolveWriteTarget other = .ok name := by
      intro name member
      cases List.mem_singleton.mp member
      exact ⟨target, resolved⟩
    refine ⟨fun id source => ⟨?_, hasDocument_indexDocument index id source⟩,
      fun id source => ⟨?_, hasDocument_createDocument index id source⟩, fun operations targets member => ?_⟩
    · exact (wrote_indexDocument index id source).found sound only resolved List.mem_cons_self
    · exact (wrote_createDocument index id source).found sound only resolved List.mem_cons_self
    · exact (wrote_applyDocumentWrites operations).found sound targets resolved member

theorem alias_resolution_coherent_deces :
    let catalog := runEvents CatalogEvent.step ([.createIndex "deces-2024" none (.object []) .empty,
      .addAlias "deces-2024" "deces" (.object [])] : List (CatalogEvent .ascii)) .empty
    "deces-2024" ∈ (catalog.indexDocument "deces-2024" "1" (.object [])).resolveIndex "deces" := by
  intro catalog
  have coherent := alias_resolution_coherent ([.createIndex "deces-2024" none (.object []) .empty,
    .addAlias "deces-2024" "deces" (.object [])] : List (CatalogEvent .ascii))
  exact ((coherent.2 "deces" "deces-2024" (by decide +kernel)).1 "1" (.object [])).1

end Coherence

section Collisions

variable (catalog) in
/- A new index takes a name that is no alias, and brings no alias that has the name of an index. -/
def CreatesApart (index : String) (aliases : SortedMap String Value) : Prop :=
  let defaults := templateDefaultsForNewIndex (matchingIndexTemplates index catalog.indexTemplates)
  catalog.indexExists index ∨ (catalog.aliasExists index = false ∧
    ∀ aliasName ∈ (defaults.aliases.extend aliases).keys,
      aliasName ≠ index ∧ catalog.indexExists aliasName = false)

variable (catalog) in
def WritesApart : DocumentWriteOperation → Prop
  | .index index _ _ _ => catalog.CreatesApart index .empty
  | .create index _ _ => catalog.CreatesApart index .empty
  | .delete _ _ => True

variable {unicode : Unicode}

/- The operation gives no alias the name of an index and no index the name of an alias. -/
def KeepsApart {unicode : Unicode} (catalog : Catalog) : CatalogEvent unicode → Prop
  | .createIndex index _ _ aliases => catalog.CreatesApart index aliases
  | .indexDocument index _ _ => catalog.CreatesApart index .empty
  | .createDocument index _ _ => catalog.CreatesApart index .empty
  | .applyDocumentWrites operations =>
    Admitted (fun catalog operation => (catalog.applyDocumentWrite operation).2) WritesApart catalog
      operations
  | .setMapping index _ => catalog.indexExists index ∨ catalog.aliasExists index = false
  | .addAlias index aliasName _ => catalog.indexExists index → catalog.indexExists aliasName = false
  | _ => True

instance (index : String) (aliases : SortedMap String Value) :
    Decidable (catalog.CreatesApart index aliases) := by
  unfold CreatesApart
  infer_instance

instance (operation : DocumentWriteOperation) : Decidable (catalog.WritesApart operation) := by
  unfold WritesApart
  cases operation <;> infer_instance

instance (e : CatalogEvent unicode) : Decidable (catalog.KeepsApart e) := by
  unfold KeepsApart
  cases e <;> infer_instance

theorem NamesApart.congr (apart : catalog.NamesApart) {after : Catalog}
    (indices : ∀ name, after.indexExists name = catalog.indexExists name)
    (aliases : after.aliases = catalog.aliases) : after.NamesApart := by
  intro name there
  rw [aliasExists, aliases]
  exact apart name (indices name ▸ there)

theorem createIndexIfMissing_apart (apart : catalog.NamesApart) (index : String) (mapping : IndexMapping)
    (settings : Value) (aliases : SortedMap String Value) :
    (catalog.createIndexIfMissing index mapping settings aliases).NamesApart ↔
      catalog.CreatesApart index aliases := by
  unfold createIndexIfMissing CreatesApart
  split
  · rename_i there
    simp [apart, there]
  · rename_i free
    dsimp only [TemplateDefaults.merge]
    generalize ((templateDefaultsForNewIndex
      (matchingIndexTemplates index catalog.indexTemplates)).aliases.extend aliases) = created
    have exists_iff (name : String) (data : StoredIndex) :
        ((catalog.put index data).insertAliases index created).indexExists name =
          (catalog.indexExists name || decide (name = index)) := by simp
    have alias_iff (name : String) (data : StoredIndex) :
        ((catalog.put index data).insertAliases index created).aliasExists name =
          (catalog.aliasExists name || decide (name ∈ created.keys)) := aliasExists_insertAliases ..
    simp only [NamesApart, exists_iff, alias_iff, free, false_or, Bool.false_eq_true, Bool.or_eq_true,
      Bool.or_eq_false_iff, decide_eq_true_eq, decide_eq_false_iff_not]
    constructor
    · intro kept
      refine ⟨(kept index (.inr rfl)).1, fun aliasName member => ⟨?_, ?_⟩⟩
      · rintro rfl
        exact (kept aliasName (.inr rfl)).2 member
      · by_contra there
        exact (kept aliasName (.inl (Bool.eq_true_of_not_eq_false there))).2 member
    · rintro ⟨unknown, new⟩ name (there | rfl)
      · refine ⟨apart name there, fun member => ?_⟩
        simp [(new name member).2] at there
      · exact ⟨unknown, fun member => (new name member).1 rfl⟩

theorem indexDocument_apart (apart : catalog.NamesApart) (index id : String) (source : Value) :
    (catalog.indexDocument index id source).NamesApart ↔ catalog.CreatesApart index .empty := by
  rw [← createIndexIfMissing_apart apart index .default (.object [])]
  constructor
  · intro kept
    exact kept.congr (by simp [indexDocument, ensureIndex]) (aliases_modify index _).symm
  · intro kept
    exact kept.congr (by simp [indexDocument, ensureIndex]) (aliases_modify index _)

theorem createDocument_apart (apart : catalog.NamesApart) (index id : String) (source : Value) :
    (catalog.createDocument index id source).2.NamesApart ↔ catalog.CreatesApart index .empty := by
  unfold createDocument
  dsimp only
  split
  · exact createIndexIfMissing_apart apart index _ _ _
  · exact indexDocument_apart apart index id source

theorem applyDocumentWrite_apart (apart : catalog.NamesApart) (operation : DocumentWriteOperation) :
    (catalog.applyDocumentWrite operation).2.NamesApart ↔ catalog.WritesApart operation := by
  cases operation with
  | index index id source status => exact indexDocument_apart apart index id source
  | create index id source =>
    rw [applyDocumentWrite_create]
    exact createDocument_apart apart index id source
  | delete index id =>
    refine ⟨fun _ => trivial, fun _ => ?_⟩
    exact apart.congr (fun name => indexExists_modify index name _) (aliases_modify index _)

/-- What is forgotten does not collide: an index that is deleted, an alias that is removed. -/
theorem NamesApart.sub (apart : catalog.NamesApart) {after : Catalog}
    (indices : ∀ name, after.indexExists name → catalog.indexExists name)
    (aliases : ∀ name, after.aliasExists name → catalog.aliasExists name) : after.NamesApart := by
  intro name there
  by_contra known
  have before := aliases name (Bool.eq_true_of_not_eq_false known)
  rw [apart name (indices name there)] at before
  cases before

theorem NamesApart.deleteIndex (apart : catalog.NamesApart) (index : String) :
    (catalog.deleteIndex index).NamesApart := by
  apply apart.sub
  · intro name there
    rw [indexExists_deleteIndex, Bool.and_eq_true] at there
    exact there.1
  · intro name known
    obtain ⟨indices, found⟩ := Option.isSome_iff_exists.mp known
    have listed := (SortedMap.get?_eq_some_iff _ _ _).mp found
    have removed := (SortedMap.get?_eq_some_iff _ _ _).mpr (List.mem_filter.mp listed).1
    rw [SortedMap.get?_map] at removed
    obtain ⟨before, old, -⟩ := Option.map_eq_some_iff.mp removed
    rw [aliasExists, old]
    rfl

theorem NamesApart.removeAlias (apart : catalog.NamesApart) (index aliasName : String) :
    (catalog.removeAlias index aliasName).NamesApart := by
  unfold Catalog.removeAlias
  split
  · exact apart
  · rename_i indices present
    apply apart.sub
    · exact fun name there => there
    · intro name known
      unfold aliasExists at known ⊢
      dsimp only at known
      split at known
      · rw [SortedMap.get?_erase] at known
        split at known
        · cases known
        · exact known
      · rw [SortedMap.get?_upsert] at known
        split at known
        · rename_i same
          rw [same, present]
          rfl
        · exact known

/-- A collision that a batch of writes causes stays until its end. -/
theorem applyDocumentWrites_apart (apart : catalog.NamesApart) (operations : List DocumentWriteOperation) :
    (catalog.applyDocumentWrites operations).NamesApart ↔
      Admitted (fun catalog operation => (catalog.applyDocumentWrite operation).2) WritesApart catalog
        operations := by
  have prefixes : Admitted (fun catalog operation => (catalog.applyDocumentWrite operation).2) WritesApart
      catalog operations ↔
        ∀ earlier, earlier <+: operations → (catalog.applyDocumentWrites earlier).NamesApart :=
    admitted_iff NamesApart (fun _ operation apart => applyDocumentWrite_apart apart operation) apart
  rw [prefixes]
  constructor
  · rintro kept earlier ⟨later, rfl⟩
    have wrote : Wrote (catalog.applyDocumentWrites earlier)
        (catalog.applyDocumentWrites (earlier ++ later)) (later.flatMap DocumentWriteOperation.written) := by
      have split : catalog.applyDocumentWrites (earlier ++ later) =
          (catalog.applyDocumentWrites earlier).applyDocumentWrites later := List.foldl_append ..
      rw [split]
      exact wrote_applyDocumentWrites later
    apply kept.sub
    · exact fun name there => wrote.kept there
    · exact wrote.known
  · exact fun every => every operations (List.prefix_refl operations)

theorem setMapping_apart (apart : catalog.NamesApart) (index : String) (mapping : IndexMapping) :
    (catalog.setMapping index mapping).NamesApart ↔
      catalog.indexExists index ∨ catalog.aliasExists index = false := by
  have unchanged : (catalog.setMapping index mapping).NamesApart ↔
      (if catalog.indexExists index then catalog else catalog.put index (.new .default .empty)).NamesApart := by
    constructor
    · intro kept
      exact kept.congr (fun name => (indexExists_modify index name _).symm) (aliases_modify index _).symm
    · intro kept
      exact kept.congr (fun name => indexExists_modify index name _) (aliases_modify index _)
  rw [unchanged]
  split
  · rename_i there
    simp [apart, there]
  · rename_i free
    have alias_eq (name : String) (data : StoredIndex) :
        (catalog.put index data).aliasExists name = catalog.aliasExists name := rfl
    simp only [NamesApart, indexExists_put, alias_eq, free, Bool.false_eq_true, false_or, Bool.or_eq_true,
      decide_eq_true_eq]
    constructor
    · exact fun kept => kept index (.inr rfl)
    · rintro unknown name (there | rfl)
      · exact apart name there
      · exact unknown

theorem addAliasWithDefinition_apart (apart : catalog.NamesApart) (index aliasName : String)
    (definition : Value) : (catalog.addAliasWithDefinition index aliasName definition).NamesApart ↔
      (catalog.indexExists index → catalog.indexExists aliasName = false) := by
  unfold addAliasWithDefinition
  split
  · rename_i there
    have exists_eq (name : String) :
        (catalog.insertAlias index aliasName definition).indexExists name = catalog.indexExists name := rfl
    simp only [NamesApart, exists_eq, aliasExists_insertAlias, Bool.or_eq_false_iff, decide_eq_false_iff_not]
    constructor
    · intro kept _
      by_contra taken
      exact (kept aliasName (Bool.eq_true_of_not_eq_false taken)).2 rfl
    · intro free name here
      refine ⟨apart name here, ?_⟩
      rintro rfl
      simp [free there] at here
  · rename_i missing
    simp [apart, missing]

/-- An operation on a catalog without collisions causes none exactly if it keeps the names apart. -/
theorem step_apart (apart : catalog.NamesApart) (e : CatalogEvent unicode) :
    (e.step catalog).NamesApart ↔ catalog.KeepsApart e := by
  have always {after : Catalog} (kept : after.NamesApart) : after.NamesApart ↔ True :=
    ⟨fun _ => trivial, fun _ => kept⟩
  have changed (index : String) (change : StoredIndex → StoredIndex) :
      (catalog.modify index change).NamesApart :=
    apart.congr (fun name => indexExists_modify index name change) (aliases_modify index change)
  cases e with
  | createIndex index mapping settings aliases => exact createIndexIfMissing_apart apart index _ _ _
  | indexDocument index id source => exact indexDocument_apart apart index id source
  | createDocument index id source => exact createDocument_apart apart index id source
  | deleteDocument index id => exact always (changed index _)
  | applyDocumentWrites operations => exact applyDocumentWrites_apart apart operations
  | setMapping index mapping => exact setMapping_apart apart index mapping.mapping
  | mergeFieldMappings index mapping => exact always (changed index _)
  | deleteIndex index => exact always (apart.deleteIndex index)
  | addAlias index aliasName definition => exact addAliasWithDefinition_apart apart index aliasName definition
  | removeAlias index aliasName => exact always (apart.removeAlias index aliasName)
  | putIndexTemplate name indexPatterns composedOf priority template =>
    apply always
    unfold CatalogEvent.step
    dsimp only
    unfold putIndexTemplate
    split
    · exact apart
    · exact apart
  | deleteIndexTemplate name => exact always apart
  | putComponentTemplate name template => exact always apart
  | deleteComponentTemplate name => exact always apart

theorem empty_apart : NamesApart .empty := fun _ there => by cases there

theorem not_written_of_alias (sound : catalog.Sound unicode) {target index : String}
    (resolved : catalog.resolveWriteTarget target = .ok index) :
    catalog.indexExists index = true ∨ catalog.aliasExists index = false := by
  rcases resolveWriteTarget_ok resolved with ⟨rfl, known⟩ | ⟨-, stands⟩
  · exact known
  · exact .inl (sound.stands stands)

/-- No operation compares a new name with the names of the other kind. A run is free of collisions
exactly as long as its operations keep the names apart; a write that goes where its target resolves to
never makes an index under the name of an alias; and where names collide, the index goes first. -/
theorem names_apart_iff (events : List (CatalogEvent unicode)) :
    ((∀ earlier, earlier <+: events → (runEvents CatalogEvent.step earlier .empty).NamesApart) ↔
      Admitted CatalogEvent.step KeepsApart .empty events) ∧
    let catalog := runEvents CatalogEvent.step events .empty
    (∀ target index, catalog.resolveWriteTarget target = .ok index →
      catalog.indexExists index ∨ catalog.aliasExists index = false) ∧
    ∀ name, catalog.indexExists name →
      catalog.resolveWriteTarget name = .ok name ∧ catalog.resolveIndex name = [name] := by
  refine ⟨(admitted_iff NamesApart (fun _ e apart => step_apart apart e) empty_apart).symm, ?_, ?_⟩
  · exact fun target index resolved => not_written_of_alias (run_sound events) resolved
  · exact fun name there => index_first there

def hidingEvents : List (CatalogEvent .ascii) :=
  [.createIndex "deces" none (.object []) .empty, .createIndex "communes" none (.object []) .empty,
    .addAlias "communes" "deces" (.object [])]

theorem not_names_apart :
    ¬ ∀ events : List (CatalogEvent .ascii), (runEvents CatalogEvent.step events .empty).NamesApart := by
  intro every
  have apart := every hidingEvents "deces" (by decide +kernel)
  revert apart
  decide +kernel

end Collisions

end Catalog

end Surch.Api
