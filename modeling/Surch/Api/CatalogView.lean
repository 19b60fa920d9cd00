import Surch.Api.CatalogRuns
import Surch.Api.LiveSets

/-! The store with its inverted indices and the catalog are two views of one `AppState`: the first has
what searches read, the second what requests see of it. Every run keeps the two in step. -/
namespace Surch.Api
open Surch.Lib Surch.Index

variable {Digest : Type} {env : Environment Digest}

/- The documents of the map are those of the index. -/
def PlainMap.Lists (plain : PlainMap) (stored : StoredIndex) : Prop :=
  ∀ id, (plain.entries.get? id).isSome = stored.documents.contains id

structure Shown (zstd : Zstd) (data : InMemoryIndex Digest) (stored : StoredIndex) : Prop where
  sound : SoundMaps zstd data.maps
  documents : ∃ plain, Agrees data.maps plain ∧ plain.Lists stored
  mapping : data.mapping = stored.mapping

namespace Shown

variable {data next : InMemoryIndex Digest} {stored : StoredIndex}

theorem hasDocument (shown : Shown env.zstd data stored) (id : String) :
    data.maps.hasDocument id = stored.documents.contains id := by
  obtain ⟨plain, agrees, same⟩ := shown.documents
  rw [agrees.hasDocument, same]

theorem new (epoch : Nat) (mapping : IndexMapping) (settings : SortedMap String Value) :
    Shown env.zstd (.new epoch mapping : InMemoryIndex Digest) (.new mapping settings) where
  sound := new_sound env.zstd epoch
  documents := ⟨.empty, new_agrees env.zstd epoch, fun _ => rfl⟩
  mapping := rfl

theorem step (shown : Shown env.zstd data stored) (lossless : env.zstd.Lossless) {action : IdMapAction}
    (fits : action.Fits env.zstd data.maps) {maps : IdMaps}
    (stepped : idMapStep env.zstd data.maps action = some maps) {after : StoredIndex}
    (documents : ∀ plain : PlainMap, plain.Lists stored →
      (plainStep env.zstd data.maps plain action).Lists after)
    (same : next.maps = maps) (mapping : next.mapping = after.mapping) : Shown env.zstd next after := by
  obtain ⟨plain, agrees, listed⟩ := shown.documents
  obtain ⟨maps', stepped', sound, agrees'⟩ := idMapStep_agrees lossless shown.sound agrees fits
  obtain rfl : maps = maps' := Option.some.inj (stepped.symm.trans stepped')
  subst same
  exact ⟨sound, ⟨_, agrees', documents plain listed⟩, mapping⟩

theorem upsert (shown : Shown env.zstd data stored) (lossless : env.zstd.Lossless) {id : String}
    {source : Value} (fits : data.UpsertFits env id source)
    (upserted : data.upsertDocumentDeferred env id source = some next) :
    Shown env.zstd next (stored.upsertDocument id source) := by
  obtain ⟨maps, filed, result⟩ := Option.bind_eq_some_iff.mp upserted
  cases result
  refine shown.step lossless fits filed (fun plain listed other => ?_) rfl
    (congrArg (ensureFields · source) shown.mapping)
  obtain ⟨⟨blob, store⟩, written, -⟩ := Option.bind_eq_some_iff.mp filed
  have entries : (plain.upsert id blob).entries.get? other =
      if other = id then some (((plain.entries.get? id).map Prod.fst).getD plain.next, blob)
      else plain.entries.get? other := by
    unfold PlainMap.upsert
    cases plain.entries.get? id <;> exact SortedMap.get?_upsert ..
  rw [plainStep, written]
  dsimp only
  rw [entries, StoredIndex.upsertDocument, Ledger.contains_put, ← listed]
  by_cases here : other = id
  · rw [if_pos here, decide_eq_true here]
    rfl
  · rw [if_neg here, decide_eq_false here, Bool.false_or]

theorem delete (shown : Shown env.zstd data stored) (lossless : env.zstd.Lossless) (id : String) :
    Shown env.zstd (data.deleteDocumentDeferred id).2 (stored.deleteDocument id) := by
  have fits : (IdMapAction.delete id).Fits env.zstd data.maps := trivial
  refine shown.step lossless fits rfl (fun plain listed other => ?_) rfl shown.mapping
  rw [plainStep, PlainMap.delete, SortedMap.get?_erase, StoredIndex.deleteDocument,
    Ledger.contains_remove, ← listed]
  by_cases here : other = id
  · simp [here]
  · simp [here]

theorem rebuild (shown : Shown env.zstd data stored) {occasion : Occasion}
    (rebuilt : data.rebuildIndex env occasion = some next) : Shown env.zstd next stored := by
  obtain ⟨documents, -, result⟩ := Option.bind_eq_some_iff.mp rebuilt
  cases result
  exact ⟨shown.sound, shown.documents, shown.mapping⟩

theorem append (shown : Shown env.zstd data stored) (lossless : env.zstd.Lossless)
    {newDocIds : List Nat} (fits : data.AppendFits env newDocIds) {occasion : Occasion}
    (appended : data.appendToIndex env newDocIds occasion = some next) :
    Shown env.zstd next stored := by
  unfold InMemoryIndex.appendToIndex at appended
  unfold InMemoryIndex.AppendFits at fits
  split at appended
  · cases appended
    exact shown
  · split at appended
    · exact shown.rebuild appended
    · rename_i unfinished
      rw [if_neg unfinished] at fits
      obtain ⟨documents, -, appended⟩ := Option.bind_eq_some_iff.mp appended
      obtain ⟨flushed, -, appended⟩ := Option.bind_eq_some_iff.mp appended
      obtain ⟨maps, folded, result⟩ := Option.bind_eq_some_iff.mp appended
      cases result
      have fits : (IdMapAction.maybeDensifyByBudget env.densifyBudgetDocs).Fits env.zstd data.maps :=
        fits.2
      exact shown.step lossless fits folded (fun _ listed => listed) rfl shown.mapping

theorem refresh (shown : Shown env.zstd data stored) (lossless : env.zstd.Lossless)
    (can : data.termsFinalized = false → data.maps.CanDensify) {occasion : Occasion}
    (finalized : data.finalizeTermsForRefresh env occasion = some next) :
    Shown env.zstd next stored := by
  unfold InMemoryIndex.finalizeTermsForRefresh at finalized
  split at finalized
  · cases finalized
    exact shown
  · rename_i unfinished
    obtain ⟨maps, folded, finalized⟩ := Option.bind_eq_some_iff.mp finalized
    obtain ⟨index, -, result⟩ := Option.bind_eq_some_iff.mp finalized
    cases result
    have fits : IdMapAction.densify.Fits env.zstd data.maps := can (by simpa using unfinished)
    exact shown.step lossless fits folded (fun _ listed => listed) rfl shown.mapping

theorem upsertDocument (shown : Shown env.zstd data stored) (lossless : env.zstd.Lossless)
    {id : String} {source : Value} (fits : data.UpsertFits env id source) {occasion : Occasion}
    (upserted : data.upsertDocument env id source occasion = some next) :
    Shown env.zstd next (stored.upsertDocument id source) := by
  obtain ⟨deferred, written, rebuilt⟩ := Option.bind_eq_some_iff.mp upserted
  exact (shown.upsert lossless fits written).rebuild rebuilt

theorem deleteDocument (shown : Shown env.zstd data stored) (lossless : env.zstd.Lossless)
    {id : String} {occasion : Occasion} (deleted : data.deleteDocument env id occasion = some next) :
    Shown env.zstd next (stored.deleteDocument id) := by
  have removed := shown.delete lossless id
  simp only [InMemoryIndex.deleteDocument] at deleted
  split at deleted
  · exact removed.rebuild deleted
  · cases deleted
    exact removed

theorem setMapping (shown : Shown env.zstd data stored) {mapping : IndexMapping} {occasion : Occasion}
    (replaced : data.setMapping env mapping occasion = some next) :
    Shown env.zstd next { stored with mapping } := by
  have renamed : Shown env.zstd { data with mapping } { stored with mapping } :=
    ⟨shown.sound, shown.documents, rfl⟩
  exact renamed.rebuild replaced

end Shown

/- What becomes of the catalog by a write. -/
def Catalog.update (catalog : Catalog) : Write → Catalog
  | .indexDocument index id source => catalog.indexDocument index id source
  | .createDocument index id source => (catalog.createDocument index id source).2
  | .deleteDocument index id => catalog.deleteDocument index id
  | .applyDocumentWrites operations => catalog.applyDocumentWrites operations
  | .setMapping index mapping => catalog.setMapping index mapping
  | .mergeFieldMappings index newFields => catalog.mergeFieldMappings index newFields
  | .deleteIndex index => catalog.deleteIndex index
  | .refreshIndex _ => catalog

def Catalog.step (catalog : Catalog) : StoreAction → Catalog
  | .write write _ => catalog.update write
  | .ensureTermsReady _ _ => catalog

/- What the templates give an index that is made for a document. -/
def Catalog.implied (catalog : Catalog) (index : String) : TemplateDefaults :=
  (templateDefaultsForNewIndex (matchingIndexTemplates index catalog.indexTemplates)).merge .default
    (.object []) .empty

theorem Catalog.get?_ensureIndex {catalog : Catalog} {index : String}
    (gone : catalog.indices.get? index = none) (other : String) :
    (catalog.ensureIndex index).indices.get? other = if other = index
      then some (.new (catalog.implied index).mapping (catalog.implied index).settings)
      else catalog.indices.get? other := by
  have absent : ¬ catalog.indexExists index = true := by simp [Catalog.indexExists, gone]
  rw [ensureIndex, Catalog.createIndexIfMissing, if_neg absent]
  dsimp only
  rw [(indices_insertAliases ..).1]
  exact get?_put ..

theorem Catalog.indexTemplates_ensureIndex (catalog : Catalog) (index : String) :
    (catalog.ensureIndex index).indexTemplates = catalog.indexTemplates := by
  rw [ensureIndex, Catalog.createIndexIfMissing]
  split
  · rfl
  · exact (indices_insertAliases ..).2.2

structure Shows (env : Environment Digest) (store : MemoryStore Digest) (catalog : Catalog) : Prop where
  indices : ∀ index, Option.Rel (Shown env.zstd) (store.indices.get? index) (catalog.indices.get? index)
  templates : ∀ index, env.templateMapping index = (catalog.implied index).mapping

namespace Shows

variable {store next : MemoryStore Digest} {catalog : Catalog}
variable {index : String} {data after : InMemoryIndex Digest} {stored : StoredIndex}

theorem empty (nothing : ∀ index, catalog.indices.get? index = none)
    (templates : ∀ index, env.templateMapping index = (catalog.implied index).mapping) :
    Shows env .empty catalog :=
  ⟨fun index => nothing index ▸ .none, templates⟩

theorem found (shows : Shows env store catalog) (here : store.indices.get? index = some data) :
    ∃ stored, catalog.indices.get? index = some stored ∧ Shown env.zstd data stored := by
  have both := shows.indices index
  rw [here] at both
  cases listed : catalog.indices.get? index with
  | none => rw [listed] at both; cases both
  | some stored =>
    rw [listed] at both
    cases both with
    | some shown => exact ⟨stored, rfl, shown⟩

theorem missing (shows : Shows env store catalog) (gone : store.indices.get? index = none) :
    catalog.indices.get? index = none := by
  have both := shows.indices index
  rw [gone] at both
  cases listed : catalog.indices.get? index with
  | none => rfl
  | some stored => rw [listed] at both; cases both

theorem indexExists (shows : Shows env store catalog) (index : String) :
    catalog.indexExists index = (store.indices.get? index).isSome := by
  cases here : store.indices.get? index with
  | none => simp [Catalog.indexExists, shows.missing here]
  | some data =>
    obtain ⟨stored, listed, -⟩ := shows.found here
    simp [Catalog.indexExists, listed]

theorem change (shows : Shows env store catalog) {later : Catalog} (shown : Shown env.zstd data stored)
    (put : ∀ other, next.indices.get? other =
      if other = index then some data else store.indices.get? other)
    (same : ∀ other, later.indices.get? other =
      if other = index then some stored else catalog.indices.get? other)
    (templates : later.indexTemplates = catalog.indexTemplates) : Shows env next later := by
  refine ⟨fun other => ?_, by unfold Catalog.implied; rw [templates]; exact shows.templates⟩
  rw [put, same]
  split
  · exact .some shown
  · exact shows.indices other

theorem modify (shows : Shows env store catalog) (listed : catalog.indices.get? index = some stored)
    {change : StoredIndex → StoredIndex} (shown : Shown env.zstd after (change stored)) :
    Shows env (store.put index after) (catalog.modify index change) := by
  refine shows.change shown (MemoryStore.get?_put store index · after) (fun other => ?_) ?_
  · rw [Catalog.get?_modify]
    by_cases here : other = index
    · rw [if_pos here, if_pos here, here, listed, Option.map_some]
    · rw [if_neg here, if_neg here]
  · unfold Catalog.modify
    rw [listed]
    rfl

theorem modify_missing (shows : Shows env store catalog) (gone : store.indices.get? index = none)
    (change : StoredIndex → StoredIndex) : Shows env store (catalog.modify index change) := by
  rw [Catalog.modify, shows.missing gone]
  exact shows

theorem createIndexIfMissing (shows : Shows env store catalog) (index : String) :
    Shows env (store.createIndexIfMissing env index) (catalog.ensureIndex index) := by
  unfold MemoryStore.createIndexIfMissing
  cases here : store.indices.get? index with
  | some data =>
    rw [Catalog.ensureIndex_of_exists (by rw [shows.indexExists, here]; rfl)]
    exact shows
  | none =>
    rw [if_neg (by simp), shows.templates index]
    exact shows.change (.new _ _ _) (MemoryStore.get?_insertNew store index · _)
      (Catalog.get?_ensureIndex (shows.missing here)) (catalog.indexTemplates_ensureIndex index)

theorem created (shows : Shows env store catalog) (index : String) :
    ∃ stored, (catalog.ensureIndex index).indices.get? index = some stored ∧
      Shown env.zstd ((store.createIndexIfMissing env index).data index) stored := by
  have created := shows.createIndexIfMissing index
  have there : ((store.createIndexIfMissing env index).indices.get? index).isSome = true := by
    unfold MemoryStore.createIndexIfMissing
    split
    · assumption
    · rw [MemoryStore.get?_insertNew, if_pos rfl]
      rfl
  obtain ⟨data, here⟩ := Option.isSome_iff_exists.mp there
  rw [MemoryStore.data, here]
  exact created.found here

theorem upsert (shows : Shows env store catalog) {id : String} {source : Value}
    (written : ∀ stored, Shown env.zstd ((store.createIndexIfMissing env index).data index) stored →
      Shown env.zstd after (stored.upsertDocument id source)) :
    Shows env ((store.createIndexIfMissing env index).put index after)
      (catalog.indexDocument index id source) := by
  obtain ⟨before, listed, shown⟩ := shows.created index
  exact (shows.createIndexIfMissing index).modify listed (written before shown)

theorem conflict (shows : Shows env store catalog) (index id : String) :
    (catalog.ensureIndex index).hasDocument index id =
      ((store.createIndexIfMissing env index).data index).maps.hasDocument id := by
  obtain ⟨before, listed, shown⟩ := shows.created index
  rw [shown.hasDocument, Catalog.hasDocument, listed]
  rfl

theorem rebuild (shows : Shows env store catalog) (here : store.indices.get? index = some data)
    (kept : ∀ stored, Shown env.zstd data stored → Shown env.zstd after stored) :
    Shows env (store.put index after) catalog := by
  obtain ⟨stored, listed, shown⟩ := shows.found here
  refine shows.change (kept stored shown) (MemoryStore.get?_put store index · after)
    (fun other => ?_) rfl
  split
  · rename_i same
    rw [same, listed]
  · rfl

end Shows

variable {state after : BulkState Digest} {catalog : Catalog}

theorem apply_shows (shows : Shows env state.store catalog) (lossless : env.zstd.Lossless)
    {operation : DocumentWriteOperation} (fits : OperationFits env state.store operation)
    (applied : state.apply env operation = some after) :
    Shows env after.store (catalog.applyDocumentWrite operation).2 := by
  cases operation with
  | index index id source status =>
    simp only [BulkState.apply, Option.bind_eq_bind, Option.bind_eq_some_iff, Option.pure_def]
      at applied
    obtain ⟨data, stored, result⟩ := applied
    cases result
    have written := shows.upsert fun before shown => shown.upsert lossless fits stored
    split
    · exact written
    · rw [BulkState.store_answer, BulkState.store_append]
      exact written
  | create index id source =>
    rw [Catalog.applyDocumentWrite_create, Catalog.createDocument, shows.conflict]
    simp only [BulkState.apply] at applied
    split at applied
    · rename_i present
      cases applied
      rw [if_pos present]
      exact shows.createIndexIfMissing index
    · rename_i absent
      simp only [Option.bind_eq_bind, Option.bind_eq_some_iff, Option.pure_def] at applied
      obtain ⟨data, stored, result⟩ := applied
      cases result
      rw [if_neg absent, BulkState.store_answer, BulkState.store_append]
      exact shows.upsert fun before shown =>
        shown.upsert lossless (fits (by simpa using absent)) stored
  | delete index id =>
    simp only [BulkState.apply] at applied
    split at applied
    · rename_i gone
      cases applied
      exact shows.modify_missing gone _
    · rename_i data found
      cases applied
      obtain ⟨stored, listed, shown⟩ := shows.found found
      have removed : Shows env (state.store.put index (data.deleteDocumentDeferred id).2)
          (catalog.deleteDocument index id) := shows.modify listed (shown.delete lossless id)
      split
      · exact removed
      · exact removed

theorem applyAll_shows (shows : Shows env state.store catalog) (lossless : env.zstd.Lossless)
    {operations : List DocumentWriteOperation} (fits : state.FitsAll env operations)
    (applied : state.applyAll env operations = some after) :
    Shows env after.store (catalog.applyDocumentWrites operations) ∧ after.FinishFits env := by
  induction operations generalizing state catalog with
  | nil =>
    cases applied
    exact ⟨shows, fits⟩
  | cons operation rest ih =>
    obtain ⟨next, one, later⟩ := Option.bind_eq_some_iff.mp applied
    exact ih (apply_shows shows lossless fits.1 one) (fits.2 next one) later

theorem finishAll_shows (lossless : env.zstd.Lossless) {occasions : Occasions} (indices : List String)
    (distinct : indices.Nodup) {store next : MemoryStore Digest} (shows : Shows env store catalog)
    (fits : ∀ index ∈ indices, ∀ data ∈ store.indices.get? index,
      if (state.needsFullRebuild.get? index).isSome then data.RebuildFits env
      else data.AppendFits env ((state.newDocIds.get? index).getD []))
    (finished : indices.foldlM (state.finishIndex env occasions) store = some next) :
    Shows env next catalog := by
  induction indices generalizing store with
  | nil =>
    cases finished
    exact shows
  | cons index rest ih =>
    rw [List.foldlM_cons] at finished
    obtain ⟨middle, one, later⟩ := Option.bind_eq_some_iff.mp finished
    obtain ⟨apart, distinct⟩ := List.nodup_cons.mp distinct
    refine ih distinct ?_ (fun other member data found => ?_) later
    · have here := fits index List.mem_cons_self
      unfold BulkState.finishIndex at one
      split at one
      · cases one
        exact shows
      · rename_i data there
        have here := here data there
        split at one
        · obtain ⟨rebuilt, built, result⟩ := Option.bind_eq_some_iff.mp one
          cases result
          exact shows.rebuild there fun stored shown => shown.rebuild built
        · rename_i free
          rw [if_neg free] at here
          split at one
          · rename_i newIds new
            rw [new] at here
            obtain ⟨appended, built, result⟩ := Option.bind_eq_some_iff.mp one
            cases result
            exact shows.rebuild there fun stored shown => shown.append lossless here built
          · cases one
            exact shows
    · have same := BulkState.finishIndex_sameBut (List.mem_singleton.mpr rfl) one other
        (fun here => apart (List.mem_singleton.mp here ▸ member))
      rw [same] at found
      exact fits other (List.mem_cons_of_mem _ member) data found

namespace Shows

variable {store next : MemoryStore Digest} {catalog : Catalog}

theorem setMapping (shows : Shows env store catalog) {index : String} {mapping : IndexMapping}
    {occasions : Occasions} (updated : store.setMapping env index mapping occasions = some next) :
    Shows env next (catalog.setMapping index mapping) := by
  obtain ⟨after, replaced, result⟩ := Option.bind_eq_some_iff.mp updated
  cases result
  rw [Catalog.setMapping]
  cases here : store.indices.get? index with
  | some data =>
    obtain ⟨stored, listed, shown⟩ := shows.found here
    rw [here, if_pos (by rfl), MemoryStore.data, here] at replaced
    rw [shows.indexExists, here, if_pos (by rfl), if_pos (by rfl)]
    exact shows.modify listed (shown.setMapping replaced)
  | none =>
    rw [here, if_neg (by simp), MemoryStore.data, MemoryStore.get?_insertNew, if_pos rfl] at replaced
    rw [shows.indexExists, here, if_neg (by simp), if_neg (by simp)]
    have opened : Shows env (store.insertNew index .default)
        (catalog.put index (.new .default .empty)) :=
      shows.change (.new _ _ _) (MemoryStore.get?_insertNew store index · _)
        (Catalog.get?_put index · _) rfl
    exact opened.modify (by rw [Catalog.get?_put, if_pos rfl])
      ((Shown.new (store.epochs % 2 ^ 64) .default .empty).setMapping replaced)

theorem mergeFieldMappings (shows : Shows env store catalog) {index : String}
    {newFields : List (String × FieldMapping)} {occasions : Occasions} {merged : Bool}
    (updated : store.mergeFieldMappings env index newFields occasions = some (merged, next)) :
    Shows env next (catalog.mergeFieldMappings index newFields) := by
  unfold MemoryStore.mergeFieldMappings at updated
  split at updated
  · rename_i gone
    cases updated
    exact shows.modify_missing gone _
  · rename_i data here
    obtain ⟨stored, listed, shown⟩ := shows.found here
    split at updated
    · rename_i conflict
      cases updated
      have kept : catalog.mergeFieldMappings index newFields = catalog.put index stored := by
        simp only [Catalog.mergeFieldMappings, Catalog.modify, listed, ← shown.mapping, conflict]
      rw [kept]
      refine shows.change shown (fun other => ?_) (Catalog.get?_put index · stored) rfl
      split
      · rename_i same
        rw [same, here]
      · rfl
    · rename_i mapping joined
      obtain ⟨after, replaced, result⟩ := Option.bind_eq_some_iff.mp updated
      cases result
      have changed : catalog.mergeFieldMappings index newFields =
          catalog.modify index fun data => { data with mapping } := by
        simp only [Catalog.mergeFieldMappings, Catalog.modify, listed, ← shown.mapping, joined]
      rw [changed]
      exact shows.modify listed (shown.setMapping replaced)

theorem update (shows : Shows env store catalog) (lossless : env.zstd.Lossless) {write : Write}
    (fits : store.Fits env write) {occasions : Occasions} {touched : List String}
    (updated : store.update env occasions write = some (touched, next)) :
    Shows env next (catalog.update write) := by
  cases write with
  | indexDocument index id source =>
    obtain ⟨last, updated, result⟩ := Option.bind_eq_some_iff.mp updated
    cases result
    obtain ⟨data, upserted, result⟩ := Option.bind_eq_some_iff.mp updated
    cases result
    exact shows.upsert fun before shown => shown.upsertDocument lossless fits.1 upserted
  | createDocument index id source =>
    obtain ⟨⟨done, last⟩, updated, result⟩ := Option.bind_eq_some_iff.mp updated
    cases result
    rw [Catalog.update, Catalog.createDocument, shows.conflict]
    simp only [MemoryStore.createDocument] at updated
    split at updated
    · rename_i present
      cases updated
      rw [if_pos present]
      exact shows.createIndexIfMissing index
    · rename_i absent
      obtain ⟨data, upserted, result⟩ := Option.bind_eq_some_iff.mp updated
      cases result
      rw [if_neg absent]
      exact shows.upsert fun before shown =>
        shown.upsertDocument lossless (fits (by simpa using absent)).1 upserted
  | deleteDocument index id =>
    obtain ⟨last, updated, result⟩ := Option.bind_eq_some_iff.mp updated
    cases result
    unfold MemoryStore.deleteDocument at updated
    split at updated
    · rename_i gone
      cases updated
      exact shows.modify_missing gone _
    · rename_i data here
      obtain ⟨after, deleted, result⟩ := Option.bind_eq_some_iff.mp updated
      cases result
      obtain ⟨stored, listed, shown⟩ := shows.found here
      exact shows.modify listed (shown.deleteDocument lossless deleted)
  | applyDocumentWrites operations =>
    obtain ⟨⟨results, touched, last⟩, updated, result⟩ := Option.bind_eq_some_iff.mp updated
    cases result
    simp only [MemoryStore.applyDocumentWrites, Option.bind_eq_bind, Option.bind_eq_some_iff,
      Option.pure_def] at updated
    obtain ⟨state, all, last, finished, result⟩ := updated
    cases result
    have started : Shows env (BulkState.start store).store catalog := shows
    obtain ⟨written, ready⟩ := applyAll_shows started lossless fits all
    exact finishAll_shows lossless _ state.touched.keys_nodup written
      (fun index member data found => ready index member data found) finished
  | setMapping index mapping =>
    obtain ⟨last, updated, result⟩ := Option.bind_eq_some_iff.mp updated
    cases result
    exact shows.setMapping updated
  | mergeFieldMappings index newFields =>
    obtain ⟨⟨merged, last⟩, updated, result⟩ := Option.bind_eq_some_iff.mp updated
    cases result
    exact shows.mergeFieldMappings updated
  | deleteIndex index =>
    cases updated
    refine ⟨fun other => ?_, shows.templates⟩
    rw [MemoryStore.deleteIndex, Catalog.update, Catalog.deleteIndex, SortedMap.get?_erase,
      SortedMap.get?_erase]
    split
    · exact .none
    · exact shows.indices other
  | refreshIndex index =>
    obtain ⟨last, updated, result⟩ := Option.bind_eq_some_iff.mp updated
    cases result
    unfold MemoryStore.refreshIndex at updated
    split at updated
    · cases updated
      exact shows
    · rename_i data here
      obtain ⟨after, finalized, result⟩ := Option.bind_eq_some_iff.mp updated
      cases result
      exact shows.rebuild here fun stored shown => shown.refresh lossless (fits data here) finalized

theorem ensureTermsReady (shows : Shows env store catalog) (index : String) (occasions : Occasions) :
    Shows env (store.ensureTermsReady env index occasions) catalog := by
  unfold MemoryStore.ensureTermsReady
  split
  · exact shows
  · rename_i data here
    exact shows.rebuild here fun stored shown => ⟨shown.sound, shown.documents, shown.mapping⟩

end Shows

theorem storeStep_shows (lossless : env.zstd.Lossless) {store next : MemoryStore Digest}
    {catalog : Catalog} (shows : Shows env store catalog) {action : StoreAction}
    (fits : ActionFits env store action)
    (stepped : storeStep env store action = some next) : Shows env next (catalog.step action) := by
  cases action with
  | write write occasions =>
    obtain ⟨⟨touched, last⟩, updated, result⟩ := Option.map_eq_some_iff.mp stepped
    cases result
    exact shows.update lossless fits updated
  | ensureTermsReady index occasions =>
    cases stepped
    exact shows.ensureTermsReady index occasions

/-- The store refines the catalog: after every run that fits, both have the same indices, under the same
mappings and with the same documents. -/
theorem storeRun_shows (lossless : env.zstd.Lossless) {actions : List StoreAction}
    {store last : MemoryStore Digest} {catalog : Catalog} (shows : Shows env store catalog)
    (fits : RunFits env store actions) (finished : storeRun env store actions = some last) :
    Shows env last (actions.foldl Catalog.step catalog) := by
  induction actions generalizing store catalog with
  | nil =>
    cases finished
    exact shows
  | cons action rest ih =>
    obtain ⟨next, stepped, later⟩ := Option.bind_eq_some_iff.mp finished
    exact ih (storeStep_shows lossless shows fits.1 stepped) (fits.2 next stepped) later

end Surch.Api
