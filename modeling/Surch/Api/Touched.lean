import Surch.Api.AppState

/-! A write changes no index but those it reports as touched. -/
namespace Surch.Api
open Surch.Lib Surch.Index

variable {Digest : Type} {env : Environment Digest} {store next : MemoryStore Digest}

namespace MemoryStore

theorem get?_put (store : MemoryStore Digest) (index other : String) (data : InMemoryIndex Digest) :
    (store.put index data).indices.get? other =
      if other = index then some data else store.indices.get? other :=
  SortedMap.get?_upsert ..

theorem get?_insertNew (store : MemoryStore Digest) (index other : String) (mapping : IndexMapping) :
    (store.insertNew index mapping).indices.get? other =
      if other = index then some (.new (store.epochs % 2 ^ 64) mapping)
      else store.indices.get? other :=
  get?_put ..

def SameBut (touched : List String) (store next : MemoryStore Digest) : Prop :=
  ∀ index, index ∉ touched → next.indices.get? index = store.indices.get? index

theorem SameBut.refl (touched : List String) (store : MemoryStore Digest) :
    SameBut touched store store := fun _ _ => rfl

theorem SameBut.trans {touched : List String} {first second third : MemoryStore Digest}
    (left : SameBut touched first second) (right : SameBut touched second third) :
    SameBut touched first third := fun index outside =>
  (right index outside).trans (left index outside)

theorem SameBut.mono {touched more : List String} (same : SameBut touched store next)
    (subset : ∀ index ∈ touched, index ∈ more) : SameBut more store next := fun index outside =>
  same index fun member => outside (subset index member)

theorem sameBut_put (store : MemoryStore Digest) {index : String} {touched : List String}
    (member : index ∈ touched) (data : InMemoryIndex Digest) :
    SameBut touched store (store.put index data) := by
  intro other outside
  rw [get?_put, if_neg]
  rintro rfl
  exact outside member

theorem sameBut_createIndexIfMissing (env : Environment Digest) (store : MemoryStore Digest)
    {index : String} {touched : List String} (member : index ∈ touched) :
    SameBut touched store (store.createIndexIfMissing env index) := by
  unfold createIndexIfMissing
  split
  · exact .refl touched store
  · intro other outside
    rw [get?_insertNew, if_neg]
    rintro rfl
    exact outside member

/-- An index that has a document was there before. -/
theorem createIndexIfMissing_of_hasDocument {index id : String}
    (present : ((store.createIndexIfMissing env index).data index).maps.hasDocument id = true) :
    store.createIndexIfMissing env index = store := by
  unfold createIndexIfMissing at present ⊢
  split at present
  · rename_i exists_
    rw [if_pos exists_]
  · rw [data, get?_insertNew, if_pos rfl] at present
    cases present

theorem update_indexDocument {index id : String} {source : Value} {occasions : Occasions}
    (updated : store.indexDocument env index id source occasions = some next) :
    SameBut [index] store next := by
  simp only [indexDocument, Option.bind_eq_bind, Option.bind_eq_some_iff, Option.pure_def] at updated
  obtain ⟨data, _, result⟩ := updated
  cases result
  exact (sameBut_createIndexIfMissing env store List.mem_cons_self).trans
    (sameBut_put _ List.mem_cons_self data)

theorem update_createDocument {index id : String} {source : Value} {occasions : Occasions}
    {created : Bool} (updated : store.createDocument env index id source occasions =
      some (created, next)) : SameBut (if created then [index] else []) store next := by
  simp only [createDocument] at updated
  split at updated
  · rename_i present
    cases updated
    rw [createIndexIfMissing_of_hasDocument present]
    exact .refl _ store
  · simp only [Option.bind_eq_bind, Option.bind_eq_some_iff, Option.pure_def] at updated
    obtain ⟨data, _, result⟩ := updated
    cases result
    exact (sameBut_createIndexIfMissing env store List.mem_cons_self).trans
      (sameBut_put _ List.mem_cons_self data)

theorem update_setMapping {index : String} {mapping : IndexMapping} {occasions : Occasions}
    (updated : store.setMapping env index mapping occasions = some next) :
    SameBut [index] store next := by
  simp only [setMapping, Option.bind_eq_bind, Option.bind_eq_some_iff, Option.pure_def] at updated
  obtain ⟨data, _, result⟩ := updated
  cases result
  refine .trans ?_ (sameBut_put _ List.mem_cons_self data)
  split
  · exact .refl _ store
  · intro other outside
    rw [get?_insertNew, if_neg]
    rintro rfl
    exact outside List.mem_cons_self

theorem update_mergeFieldMappings {index : String} {newFields : List (String × FieldMapping)}
    {occasions : Occasions} {merged : Bool}
    (updated : store.mergeFieldMappings env index newFields occasions = some (merged, next)) :
    SameBut (if merged then [index] else []) store next := by
  unfold mergeFieldMappings at updated
  split at updated
  · cases updated
    exact .refl _ store
  · split at updated
    · cases updated
      exact .refl _ store
    · simp only [Option.bind_eq_bind, Option.bind_eq_some_iff, Option.pure_def] at updated
      obtain ⟨data, _, result⟩ := updated
      cases result
      exact sameBut_put _ List.mem_cons_self data

theorem update_existing {index : String}
    {change : InMemoryIndex Digest → Option (InMemoryIndex Digest)}
    (updated : (match store.indices.get? index with
      | none => some store
      | some data => (change data).bind fun data => some (store.put index data)) = some next) :
    SameBut [index] store next := by
  split at updated
  · cases updated
    exact .refl _ store
  · obtain ⟨data, _, result⟩ := Option.bind_eq_some_iff.mp updated
    cases result
    exact sameBut_put _ List.mem_cons_self data

end MemoryStore

namespace BulkState

variable {state after : BulkState Digest}

def Reports (store : MemoryStore Digest) (state : BulkState Digest) : Prop :=
  MemoryStore.SameBut state.touched.keys store state.store

@[simp] theorem store_touch (state : BulkState Digest) (index : String) :
    (state.touch index).store = state.store := rfl

@[simp] theorem store_rebuild (state : BulkState Digest) (index : String) :
    (state.rebuild index).store = state.store := rfl

@[simp] theorem store_answer (state : BulkState Digest) (result : DocumentWriteResult) :
    (state.answer result).store = state.store := rfl

@[simp] theorem store_append (state : BulkState Digest) (index : String) (docId : Option Nat) :
    (state.append index docId).store = state.store := by
  cases docId <;> rfl

@[simp] theorem touched_rebuild (state : BulkState Digest) (index : String) :
    (state.rebuild index).touched = state.touched := rfl

@[simp] theorem touched_answer (state : BulkState Digest) (result : DocumentWriteResult) :
    (state.answer result).touched = state.touched := rfl

@[simp] theorem touched_append (state : BulkState Digest) (index : String) (docId : Option Nat) :
    (state.append index docId).touched = state.touched := by
  cases docId <;> rfl

/-- An index may change once it is touched. -/
theorem Reports.touch (reports : state.Reports store) {index : String} {changed : MemoryStore Digest}
    (same : MemoryStore.SameBut [index] state.store changed) :
    ({ state with store := changed }.touch index).Reports store := by
  have known : ∀ other, other ∈ state.touched.keys →
      other ∈ ({ state with store := changed }.touch index).touched.keys := by
    intro other member
    exact (SortedMap.mem_keys_upsert ..).mpr (.inr member)
  refine (MemoryStore.SameBut.mono reports known).trans (same.mono ?_)
  intro other member
  exact (SortedMap.mem_keys_upsert ..).mpr (.inl (List.mem_singleton.mp member))

theorem Reports.write (reports : state.Reports store) (env : Environment Digest) (index : String)
    (data : InMemoryIndex Digest) :
    ({ state with store := (state.store.createIndexIfMissing env index).put index data }.touch
      index).Reports store :=
  reports.touch ((MemoryStore.sameBut_createIndexIfMissing env state.store
    (List.mem_singleton.mpr rfl)).trans (MemoryStore.sameBut_put _ (List.mem_singleton.mpr rfl) data))

theorem Reports.of_same (reports : state.Reports store) (touched : after.touched = state.touched)
    (same : ∀ index, after.store.indices.get? index = state.store.indices.get? index) :
    after.Reports store := by
  intro index outside
  rw [same]
  exact reports index (touched ▸ outside)

/-- A deletion that finds nothing changes nothing. -/
theorem deleteDocumentDeferred_of_absent {data : InMemoryIndex Digest} {id : String}
    (absent : ¬ (data.deleteDocumentDeferred id).1 = true) :
    (data.deleteDocumentDeferred id).2 = data := by
  cases resolved : data.maps.resolveUid id with
  | none => simp only [InMemoryIndex.deleteDocumentDeferred, IdMaps.deleteDocumentDeferred, resolved]
  | some docId =>
    simp [InMemoryIndex.deleteDocumentDeferred, IdMaps.deleteDocumentDeferred, resolved] at absent

theorem apply_reports {operation : DocumentWriteOperation} (reports : state.Reports store)
    (applied : state.apply env operation = some after) : after.Reports store := by
  cases operation with
  | index index id source status =>
    simp only [apply, Option.bind_eq_bind, Option.bind_eq_some_iff, Option.pure_def] at applied
    obtain ⟨data, _, result⟩ := applied
    cases result
    refine (reports.write env index data).of_same ?_ ?_
    · split <;> simp
    · intro other
      split <;> simp
  | create index id source =>
    simp only [apply] at applied
    split at applied
    · rename_i present
      cases applied
      rw [MemoryStore.createIndexIfMissing_of_hasDocument present]
      exact reports
    · simp only [Option.bind_eq_bind, Option.bind_eq_some_iff, Option.pure_def] at applied
      obtain ⟨data, _, result⟩ := applied
      cases result
      refine (reports.write env index data).of_same ?_ ?_
      · simp
      · intro other
        simp
  | delete index id =>
    simp only [apply] at applied
    split at applied
    · cases applied
      exact reports
    · rename_i data found
      cases applied
      by_cases deleted : (data.deleteDocumentDeferred id).1 = true
      · rw [if_pos deleted]
        exact reports.touch (MemoryStore.sameBut_put _ (List.mem_singleton.mpr rfl) _)
      · rw [if_neg deleted]
        refine reports.of_same rfl ?_
        intro other
        simp only [store_answer]
        rw [MemoryStore.get?_put]
        split
        · rename_i here
          rw [here, found, deleteDocumentDeferred_of_absent deleted]
        · rfl

theorem applyAll_reports {operations : List DocumentWriteOperation} (reports : state.Reports store)
    (applied : state.applyAll env operations = some after) : after.Reports store := by
  induction operations generalizing state with
  | nil =>
    cases applied
    exact reports
  | cons operation rest ih =>
    obtain ⟨next, one, later⟩ := Option.bind_eq_some_iff.mp applied
    exact ih (apply_reports reports one) later

theorem finishIndex_sameBut {occasions : Occasions} {index : String} {touched : List String}
    (member : index ∈ touched)
    (finished : state.finishIndex env occasions store index = some next) :
    MemoryStore.SameBut touched store next := by
  unfold finishIndex at finished
  split at finished
  · cases finished
    exact .refl _ store
  · split at finished
    · obtain ⟨data, _, result⟩ := Option.bind_eq_some_iff.mp finished
      cases result
      exact MemoryStore.sameBut_put _ member data
    · split at finished
      · obtain ⟨data, _, result⟩ := Option.bind_eq_some_iff.mp finished
        cases result
        exact MemoryStore.sameBut_put _ member data
      · cases finished
        exact .refl _ store

theorem finishAll_sameBut {occasions : Occasions} {indices touched : List String}
    (members : ∀ index ∈ indices, index ∈ touched)
    (finished : indices.foldlM (state.finishIndex env occasions) store = some next) :
    MemoryStore.SameBut touched store next := by
  induction indices generalizing store with
  | nil =>
    cases finished
    exact .refl _ _
  | cons index rest ih =>
    rw [List.foldlM_cons] at finished
    obtain ⟨middle, one, later⟩ := Option.bind_eq_some_iff.mp finished
    exact (finishIndex_sameBut (members index List.mem_cons_self) one).trans
      (ih (fun other member => members other (List.mem_cons_of_mem _ member)) later)

end BulkState

namespace MemoryStore

theorem update_applyDocumentWrites {operations : List DocumentWriteOperation} {occasions : Occasions}
    {results : List DocumentWriteResult} {touched : List String}
    (updated : store.applyDocumentWrites env operations occasions = some (results, touched, next)) :
    SameBut touched store next := by
  simp only [applyDocumentWrites, Option.bind_eq_bind, Option.bind_eq_some_iff, Option.pure_def]
    at updated
  obtain ⟨state, applied, last, finished, result⟩ := updated
  cases result
  have started : (BulkState.start store).Reports store := .refl _ store
  have collected := BulkState.applyAll_reports started applied
  exact collected.trans (BulkState.finishAll_sameBut (fun _ member => member) finished)

/-- Outside the indices it touches, a write leaves the store as it was. -/
theorem update_sameBut {occasions : Occasions} {write : Write} {touched : List String}
    (updated : store.update env occasions write = some (touched, next)) :
    SameBut touched store next := by
  cases write with
  | indexDocument index id source =>
    obtain ⟨last, updated, result⟩ := Option.bind_eq_some_iff.mp updated
    cases result
    exact update_indexDocument updated
  | createDocument index id source =>
    obtain ⟨⟨created, last⟩, updated, result⟩ := Option.bind_eq_some_iff.mp updated
    cases result
    exact update_createDocument updated
  | deleteDocument index id =>
    obtain ⟨last, updated, result⟩ := Option.bind_eq_some_iff.mp updated
    cases result
    exact update_existing updated
  | applyDocumentWrites operations =>
    obtain ⟨⟨results, touched, last⟩, updated, result⟩ := Option.bind_eq_some_iff.mp updated
    cases result
    exact update_applyDocumentWrites updated
  | setMapping index mapping =>
    obtain ⟨last, updated, result⟩ := Option.bind_eq_some_iff.mp updated
    cases result
    exact update_setMapping updated
  | mergeFieldMappings index newFields =>
    obtain ⟨⟨merged, last⟩, updated, result⟩ := Option.bind_eq_some_iff.mp updated
    cases result
    exact update_mergeFieldMappings updated
  | deleteIndex index =>
    cases updated
    intro other outside
    rw [deleteIndex, SortedMap.get?_erase, if_neg]
    rintro rfl
    exact outside List.mem_cons_self
  | refreshIndex index =>
    obtain ⟨last, updated, result⟩ := Option.bind_eq_some_iff.mp updated
    cases result
    exact update_existing updated

end MemoryStore

end Surch.Api
