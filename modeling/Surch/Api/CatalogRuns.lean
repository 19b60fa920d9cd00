import Surch.Api.Catalog
import Surch.Api.MappingReplay

/-! What holds of the catalog after any run of the public operations: fields are mapped as the parser
maps them, and only indices that are there have aliases. -/
namespace Surch.Api
open Surch.Lib Surch.Index

section Merging

variable {unicode : Unicode}

theorem AcceptedMapping.declared (mapping : AcceptedMapping unicode) :
    Declared unicode mapping.mapping := by
  obtain ⟨properties, parsed⟩ := mapping.accepted
  exact (declared_fromPropertiesValue parsed).1

theorem mergeMappingFields_default (mapping : IndexMapping) :
    mergeMappingFields .default mapping = mapping := by
  have analysis : (mergeMappingFields .default mapping).analysis = mapping.analysis := by
    unfold mergeMappingFields
    dsimp only
    split
    · rfl
    · rename_i none
      exact (not_not.mp none).symm
  have fields : (mergeMappingFields .default mapping).fields = mapping.fields :=
    SortedMap.empty_extend mapping.fields
  calc mergeMappingFields .default mapping
      = ⟨(mergeMappingFields .default mapping).fields, (mergeMappingFields .default mapping).analysis⟩ := rfl
    _ = mapping := by rw [fields, analysis]

theorem Declared.merge {target source : IndexMapping} (declared : Declared unicode target)
    (added : Declared unicode source) : Declared unicode (mergeMappingFields target source) := by
  intro name field found
  unfold mergeMappingFields at found
  rw [SortedMap.get?_extend, Option.or_eq_some_iff] at found
  rcases found with new | ⟨-, old⟩
  · exact added name field new
  · exact declared name field old

theorem Declared.mergeFields {mapping merged : IndexMapping} (declared : Declared unicode mapping)
    {newFields : List (String × FieldMapping)} (added : ∀ entry ∈ newFields, Mapped unicode entry.2)
    (joined : MemoryStore.mergeFields mapping newFields = some merged) : Declared unicode merged := by
  induction newFields generalizing mapping with
  | nil =>
    cases joined
    exact declared
  | cons entry rest ih =>
    obtain ⟨field, new⟩ := entry
    have next : Declared unicode
        { mapping with fields := mapping.fields.upsert field fun _ => new } := by
      intro name fieldMapping found
      rw [SortedMap.get?_upsert] at found
      split at found
      · cases found
        exact added _ List.mem_cons_self
      · exact declared name fieldMapping found
    have later := fun entry member => added entry (List.mem_cons_of_mem _ member)
    rw [MemoryStore.mergeFields] at joined
    split at joined
    · split at joined
      · cases joined
      · exact ih next later joined
    · exact ih next later joined

theorem mergeIntoSettings_empty (settings : SortedMap String Value) :
    mergeIntoSettings .empty (.object settings.entries) = settings := by
  apply SortedMap.eq_of_entries
  exact Value.object.inj (mergeSettings_empty settings)

/-- Without templates a new index is what it is asked to be. -/
theorem merge_default (mapping : IndexMapping) (settings aliases : SortedMap String Value) :
    TemplateDefaults.default.merge mapping (.object settings.entries) aliases =
      ⟨mapping, settings, aliases⟩ := by
  unfold TemplateDefaults.merge TemplateDefaults.default
  rw [mergeMappingFields_default, mergeIntoSettings_empty, SortedMap.empty_extend]

end Merging

namespace Catalog

variable {catalog : Catalog}

@[simp] theorem get?_put (index other : String) (data : StoredIndex) :
    (catalog.put index data).indices.get? other =
      if other = index then some data else catalog.indices.get? other :=
  SortedMap.get?_upsert ..

@[simp] theorem get?_modify (index other : String) (change : StoredIndex → StoredIndex) :
    (catalog.modify index change).indices.get? other =
      if other = index then (catalog.indices.get? other).map change else catalog.indices.get? other := by
  unfold modify
  cases found : catalog.indices.get? index with
  | none =>
    dsimp only
    split
    · rename_i same
      rw [same, found]
      rfl
    · rfl
  | some data =>
    dsimp only
    rw [get?_put]
    split
    · rename_i same
      rw [same, found]
      rfl
    · rfl

theorem indices_insertAliases (index : String) (aliases : SortedMap String Value) :
    (catalog.insertAliases index aliases).indices = catalog.indices ∧
      (catalog.insertAliases index aliases).componentTemplates = catalog.componentTemplates ∧
      (catalog.insertAliases index aliases).indexTemplates = catalog.indexTemplates := by
  unfold insertAliases
  generalize aliases.entries = entries
  induction entries generalizing catalog with
  | nil => exact ⟨rfl, rfl, rfl⟩
  | cons entry rest ih => exact ih

theorem ensureIndex_of_exists {index : String} (there : catalog.indexExists index = true) :
    catalog.ensureIndex index = catalog := by
  rw [ensureIndex, createIndexIfMissing, if_pos there]

theorem applyDocumentWrite_create (index id : String) (source : Value) :
    (catalog.applyDocumentWrite (.create index id source)).2 = (catalog.createDocument index id source).2 := by
  unfold applyDocumentWrite
  dsimp only
  split <;> simp_all only

section Aliases

theorem get?_aliasDefinitions (index aliasName : String) :
    (catalog.aliasDefinitionsForIndex index).get? aliasName =
      (catalog.aliases.get? aliasName).bind fun indices => indices.get? index := by
  apply Option.ext
  intro definition
  rw [SortedMap.get?_eq_some_iff, Option.bind_eq_some_iff]
  unfold aliasDefinitionsForIndex
  rw [List.mem_filterMap]
  constructor
  · rintro ⟨⟨name, indices⟩, member, found⟩
    obtain ⟨value, defined, same⟩ := Option.map_eq_some_iff.mp found
    cases same
    exact ⟨indices, (SortedMap.get?_eq_some_iff _ _ _).mpr member, defined⟩
  · rintro ⟨indices, found, defined⟩
    refine ⟨(aliasName, indices), (SortedMap.get?_eq_some_iff _ _ _).mp found, ?_⟩
    rw [defined]
    rfl

theorem aliasDefinitions_congr {other : Catalog} (same : other.aliases = catalog.aliases)
    (index : String) : other.aliasDefinitionsForIndex index = catalog.aliasDefinitionsForIndex index := by
  apply SortedMap.ext_get?
  intro aliasName
  rw [get?_aliasDefinitions, get?_aliasDefinitions, same]

theorem aliasDefinitions_insertAlias (index aliasName : String) (definition : Value) :
    (catalog.insertAlias index aliasName definition).aliasDefinitionsForIndex index =
      (catalog.aliasDefinitionsForIndex index).upsert aliasName fun _ => definition := by
  apply SortedMap.ext_get?
  intro other
  rw [get?_aliasDefinitions, SortedMap.get?_upsert, get?_aliasDefinitions, insertAlias,
    SortedMap.get?_upsert]
  split
  · rw [Option.bind_some, SortedMap.get?_upsert, if_pos rfl]
  · rfl

/-- The aliases of a new index are put over those that it has. -/
theorem aliasDefinitions_insertAliases (index : String) (aliases : SortedMap String Value) :
    (catalog.insertAliases index aliases).aliasDefinitionsForIndex index =
      (catalog.aliasDefinitionsForIndex index).extend aliases := by
  unfold insertAliases SortedMap.extend
  generalize aliases.entries = entries
  induction entries generalizing catalog with
  | nil => rfl
  | cons entry rest ih =>
    rw [List.foldl_cons, List.foldl_cons, ih, aliasDefinitions_insertAlias]

end Aliases

section Sound

variable {unicode : Unicode}

/- Every field of an index is one that the parser accepts, and aliases stand for indices that are
there. -/
structure Sound (unicode : Unicode) (catalog : Catalog) : Prop where
  declared : ∀ index data, catalog.indices.get? index = some data → Declared unicode data.mapping
  components : ∀ name template, catalog.componentTemplates.get? name = some template →
    Declared unicode template.mapping
  templates : ∀ name template, catalog.indexTemplates.get? name = some template →
    Declared unicode template.mapping
  aliased : ∀ aliasName indices, catalog.aliases.get? aliasName = some indices →
    ∀ index, (indices.get? index).isSome → catalog.indexExists index

theorem empty_sound : Sound unicode .empty := by
  constructor <;> exact fun _ _ found => by cases found

/-- An index that is not there has no aliases. -/
theorem Sound.aliasDefinitions_empty (sound : catalog.Sound unicode) {index : String}
    (free : catalog.indexExists index = false) : catalog.aliasDefinitionsForIndex index = .empty := by
  apply SortedMap.ext_get?
  intro aliasName
  rw [get?_aliasDefinitions, SortedMap.get?_empty, Option.bind_eq_none_iff]
  intro indices found
  by_contra defined
  have there := sound.aliased aliasName indices found index (Option.isSome_iff_ne_none.mpr defined)
  rw [free] at there
  cases there

theorem Sound.put (sound : catalog.Sound unicode) (index : String) {data : StoredIndex}
    (declared : Declared unicode data.mapping) : (catalog.put index data).Sound unicode := by
  constructor
  · intro other data' found
    rw [get?_put] at found
    split at found
    · cases found
      exact declared
    · exact sound.declared other data' found
  · exact sound.components
  · exact sound.templates
  · intro aliasName indices found other defined
    have there := sound.aliased aliasName indices found other defined
    unfold indexExists at there ⊢
    rw [get?_put]
    split
    · rfl
    · exact there

theorem Sound.modify (sound : catalog.Sound unicode) (index : String)
    {change : StoredIndex → StoredIndex}
    (kept : ∀ data, Declared unicode data.mapping → Declared unicode (change data).mapping) :
    (catalog.modify index change).Sound unicode := by
  unfold Catalog.modify
  split
  · exact sound
  · rename_i data found
    exact sound.put index (kept data (sound.declared index data found))

theorem Sound.insertAlias (sound : catalog.Sound unicode) {index : String}
    (there : catalog.indexExists index = true) (aliasName : String) (definition : Value) :
    (catalog.insertAlias index aliasName definition).Sound unicode := by
  constructor
  · exact sound.declared
  · exact sound.components
  · exact sound.templates
  · intro other indices found index' defined
    unfold Catalog.insertAlias at found
    rw [SortedMap.get?_upsert] at found
    split at found
    · cases found
      rw [SortedMap.get?_upsert] at defined
      split at defined
      · rename_i same
        rw [same]
        exact there
      · rename_i same _
        cases before : catalog.aliases.get? aliasName with
        | none =>
          rw [before] at defined
          cases defined
        | some indices =>
          rw [before] at defined
          exact sound.aliased aliasName indices before index' defined
    · exact sound.aliased other indices found index' defined

theorem Sound.insertAliases (sound : catalog.Sound unicode) {index : String}
    (there : catalog.indexExists index = true) (aliases : SortedMap String Value) :
    (catalog.insertAliases index aliases).Sound unicode := by
  unfold Catalog.insertAliases
  generalize aliases.entries = entries
  induction entries generalizing catalog with
  | nil => exact sound
  | cons entry rest ih => exact ih (sound.insertAlias there entry.1 entry.2) there

theorem declared_templateDefaults {matching : List (String × StoredIndexTemplate)}
    (declared : ∀ entry ∈ matching, Declared unicode entry.2.mapping) :
    Declared unicode (templateDefaultsForNewIndex matching).mapping := by
  have folded (defaults : TemplateDefaults) (started : Declared unicode defaults.mapping) :
      Declared unicode (matching.foldl
        (fun defaults entry => defaults.extend entry.2.toTemplateDefaults) defaults).mapping := by
    induction matching generalizing defaults with
    | nil => exact started
    | cons entry rest ih =>
      apply ih fun other member => declared other (List.mem_cons_of_mem _ member)
      exact started.merge (declared entry List.mem_cons_self)
  exact folded .default declared_default

theorem Sound.createIndexIfMissing (sound : catalog.Sound unicode) (index : String)
    {mapping : IndexMapping} (declared : Declared unicode mapping) (settings : Value)
    (aliases : SortedMap String Value) :
    (catalog.createIndexIfMissing index mapping settings aliases).Sound unicode := by
  unfold Catalog.createIndexIfMissing
  split
  · exact sound
  · have defaults : Declared unicode (templateDefaultsForNewIndex
        (matchingIndexTemplates index catalog.indexTemplates)).mapping := by
      apply declared_templateDefaults
      intro entry member
      have listed := (List.perm_insertionSort _ _).mem_iff.mp member
      exact sound.templates entry.1 entry.2
        ((SortedMap.get?_eq_some_iff _ _ _).mpr (List.mem_filter.mp listed).1)
    apply Sound.insertAliases
    · apply sound.put
      exact defaults.merge declared
    · unfold indexExists
      rw [get?_put, if_pos rfl]
      rfl

/-- A new index is what it is asked to be, over what the templates give. -/
theorem Sound.get?_createIndexIfMissing (sound : catalog.Sound unicode) {index : String}
    (free : catalog.indexExists index = false) (mapping : IndexMapping) (settings : Value)
    (aliases : SortedMap String Value) :
    let created := (templateDefaultsForNewIndex (matchingIndexTemplates index catalog.indexTemplates)).merge
      mapping settings aliases
    (catalog.createIndexIfMissing index mapping settings aliases).indices.get? index =
        some (.new created.mapping created.settings) ∧
      (catalog.createIndexIfMissing index mapping settings aliases).aliasDefinitionsForIndex index =
        created.aliases := by
  intro created
  have made : catalog.createIndexIfMissing index mapping settings aliases =
      (catalog.put index (.new created.mapping created.settings)).insertAliases index created.aliases := by
    simp only [Catalog.createIndexIfMissing, free, Bool.false_eq_true, if_false, created]
  rw [made]
  constructor
  · rw [(indices_insertAliases index _).1, get?_put, if_pos rfl]
  · have none : (catalog.put index (.new created.mapping created.settings)).aliasDefinitionsForIndex index =
        .empty := sound.aliasDefinitions_empty free
    rw [aliasDefinitions_insertAliases, none, SortedMap.empty_extend]

theorem Sound.ensureIndex (sound : catalog.Sound unicode) (index : String) :
    (catalog.ensureIndex index).Sound unicode :=
  sound.createIndexIfMissing index declared_default _ _

theorem Sound.indexDocument (sound : catalog.Sound unicode) (index id : String) (source : Value) :
    (catalog.indexDocument index id source).Sound unicode := by
  apply (sound.ensureIndex index).modify
  intro data declared
  exact declared_step declared (.document source)

theorem Sound.createDocument (sound : catalog.Sound unicode) (index id : String) (source : Value) :
    (catalog.createDocument index id source).2.Sound unicode := by
  unfold Catalog.createDocument
  dsimp only
  split
  · exact sound.ensureIndex index
  · exact sound.indexDocument index id source

theorem Sound.applyDocumentWrite (sound : catalog.Sound unicode) (operation : DocumentWriteOperation) :
    (catalog.applyDocumentWrite operation).2.Sound unicode := by
  cases operation with
  | index index id source status => exact sound.indexDocument index id source
  | create index id source =>
    rw [applyDocumentWrite_create]
    exact sound.createDocument index id source
  | delete index id => exact sound.modify index fun _ declared => declared

theorem Sound.applyDocumentWrites (sound : catalog.Sound unicode)
    (operations : List DocumentWriteOperation) :
    (catalog.applyDocumentWrites operations).Sound unicode := by
  unfold Catalog.applyDocumentWrites
  induction operations generalizing catalog with
  | nil => exact sound
  | cons operation rest ih => exact ih (sound.applyDocumentWrite operation)

theorem Sound.deleteIndex (sound : catalog.Sound unicode) (index : String) :
    (catalog.deleteIndex index).Sound unicode := by
  constructor
  · intro other data found
    unfold Catalog.deleteIndex at found
    rw [SortedMap.get?_erase] at found
    split at found
    · cases found
    · exact sound.declared other data found
  · exact sound.components
  · exact sound.templates
  · intro aliasName indices found other defined
    have listed := (SortedMap.get?_eq_some_iff _ _ _).mp found
    have removed := (SortedMap.get?_eq_some_iff _ _ _).mpr (List.mem_filter.mp listed).1
    rw [SortedMap.get?_map] at removed
    obtain ⟨before, old, rfl⟩ := Option.map_eq_some_iff.mp removed
    rw [SortedMap.get?_erase] at defined
    split at defined
    · cases defined
    · rename_i apart
      have there := sound.aliased aliasName before old other defined
      unfold indexExists Catalog.deleteIndex at *
      rw [SortedMap.get?_erase, if_neg apart]
      exact there

theorem Sound.removeAlias (sound : catalog.Sound unicode) (index aliasName : String) :
    (catalog.removeAlias index aliasName).Sound unicode := by
  unfold Catalog.removeAlias
  split
  · exact sound
  · rename_i indices present
    constructor
    · exact sound.declared
    · exact sound.components
    · exact sound.templates
    · intro other remaining found index' defined
      dsimp only at found
      split at found
      · rw [SortedMap.get?_erase] at found
        split at found
        · cases found
        · exact sound.aliased other remaining found index' defined
      · rw [SortedMap.get?_upsert] at found
        split at found
        · cases found
          rw [SortedMap.get?_erase] at defined
          split at defined
          · cases defined
          · exact sound.aliased aliasName indices present index' defined
        · exact sound.aliased other remaining found index' defined

theorem declared_composeComponents {components : SortedMap String StoredComponentTemplate}
    (declared : ∀ name template, components.get? name = some template →
      Declared unicode template.mapping) {names : List String} {defaults composed : TemplateDefaults}
    (started : Declared unicode defaults.mapping)
    (done : composeComponents components defaults names = .ok composed) :
    Declared unicode composed.mapping := by
  induction names generalizing defaults with
  | nil =>
    cases done
    exact started
  | cons name rest ih =>
    rw [composeComponents] at done
    split at done
    · cases done
    · rename_i component found
      exact ih (started.merge (declared name component found)) done

theorem Sound.putIndexTemplate (sound : catalog.Sound unicode) (name : String)
    {template : StoredIndexTemplate} (declared : Declared unicode template.mapping) :
    (catalog.putIndexTemplate name template).Sound unicode := by
  unfold Catalog.putIndexTemplate
  split
  · exact sound
  · rename_i stored composed
    obtain ⟨components, done, same⟩ := except_bind_ok.mp composed
    cases same
    constructor
    · exact sound.declared
    · exact sound.components
    · intro other found' found
      rw [SortedMap.get?_upsert] at found
      split at found
      · cases found
        exact (declared_composeComponents sound.components declared_default done).merge declared
      · exact sound.templates other found' found
    · exact sound.aliased

theorem Sound.putComponentTemplate (sound : catalog.Sound unicode) (name : String)
    {template : StoredComponentTemplate} (declared : Declared unicode template.mapping) :
    (catalog.putComponentTemplate name template).Sound unicode := by
  constructor
  · exact sound.declared
  · intro other stored found
    unfold Catalog.putComponentTemplate at found
    rw [SortedMap.get?_upsert] at found
    split at found
    · cases found
      exact declared
    · exact sound.components other stored found
  · exact sound.templates
  · exact sound.aliased

theorem Sound.setMapping (sound : catalog.Sound unicode) (index : String)
    {mapping : IndexMapping} (declared : Declared unicode mapping) :
    (catalog.setMapping index mapping).Sound unicode := by
  unfold Catalog.setMapping
  apply Sound.modify
  · split
    · exact sound
    · exact sound.put index declared_default
  · exact fun _ _ => declared

theorem Sound.mergeFieldMappings (sound : catalog.Sound unicode) (index : String)
    (mapping : AcceptedMapping unicode) :
    (catalog.mergeFieldMappings index mapping.mapping.fields.entries).Sound unicode := by
  apply sound.modify
  intro data declared
  split
  · exact declared
  · rename_i merged joined
    apply declared.mergeFields _ joined
    intro entry member
    exact mapping.declared entry.1 entry.2 ((SortedMap.get?_eq_some_iff _ _ _).mpr member)

/-- No operation makes the catalog unsound. -/
theorem Sound.step (sound : catalog.Sound unicode) (e : CatalogEvent unicode) :
    (e.step catalog).Sound unicode := by
  cases e with
  | createIndex index mapping settings aliases =>
    apply sound.createIndexIfMissing
    cases mapping with
    | none => exact declared_default
    | some mapping => exact mapping.declared
  | indexDocument index id source => exact sound.indexDocument index id source
  | createDocument index id source => exact sound.createDocument index id source
  | deleteDocument index id => exact sound.modify index fun _ declared => declared
  | applyDocumentWrites operations => exact sound.applyDocumentWrites operations
  | setMapping index mapping => exact sound.setMapping index mapping.declared
  | mergeFieldMappings index mapping => exact sound.mergeFieldMappings index mapping
  | deleteIndex index => exact sound.deleteIndex index
  | addAlias index aliasName definition =>
    unfold CatalogEvent.step
    dsimp only
    unfold addAliasWithDefinition
    split
    · rename_i there
      exact sound.insertAlias there aliasName definition
    · exact sound
  | removeAlias index aliasName => exact sound.removeAlias index aliasName
  | putIndexTemplate name indexPatterns composedOf priority template =>
    exact sound.putIndexTemplate name template.mapping.declared
  | deleteIndexTemplate name =>
    constructor
    · exact sound.declared
    · exact sound.components
    · intro other stored found
      unfold CatalogEvent.step at found
      dsimp only at found
      unfold Catalog.deleteIndexTemplate at found
      rw [SortedMap.get?_erase] at found
      split at found
      · cases found
      · exact sound.templates other stored found
    · exact sound.aliased
  | putComponentTemplate name template => exact sound.putComponentTemplate name template.mapping.declared
  | deleteComponentTemplate name =>
    constructor
    · exact sound.declared
    · intro other stored found
      unfold CatalogEvent.step at found
      dsimp only at found
      unfold Catalog.deleteComponentTemplate at found
      rw [SortedMap.get?_erase] at found
      split at found
      · cases found
      · exact sound.components other stored found
    · exact sound.templates
    · exact sound.aliased

theorem run_sound (events : List (CatalogEvent unicode)) :
    (runEvents CatalogEvent.step events .empty).Sound unicode := by
  have run (catalog : Catalog) (sound : catalog.Sound unicode) :
      (runEvents CatalogEvent.step events catalog).Sound unicode := by
    induction events generalizing catalog with
    | nil => exact sound
    | cons e rest ih => exact ih (e.step catalog) (sound.step e)
  exact run .empty empty_sound

end Sound

end Catalog

end Surch.Api
