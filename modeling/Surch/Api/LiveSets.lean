import Mathlib.Data.List.ReduceOption
import Surch.Api.Touched
import Surch.Api.IdMapRuns
import Surch.Index.Acceptance

/-! The documents that are live in the inverted index are those that are stored, as long as every
document that is indexed is accepted. -/
namespace Surch.Api
open Surch.Lib Surch.Index

variable {Digest : Type}

section Tracking

variable {zstd : Zstd} {maps : IdMaps}

structure Tracked (zstd : Zstd) (maps : IdMaps) : Prop where
  sound : SoundMaps zstd maps
  agrees : ∃ plain, Agrees maps plain

theorem new_tracked (zstd : Zstd) (epoch : Nat) : Tracked zstd (.new epoch) :=
  ⟨new_sound zstd epoch, .empty, new_agrees zstd epoch⟩

theorem Agrees.uid_isSome {plain : PlainMap} (agrees : Agrees maps plain) (docId : Nat) :
    (maps.uidForDocId docId).isSome = true ↔
      ∃ id blob, plain.entries.get? id = some (docId, blob) := by
  rw [Option.isSome_iff_exists]
  exact exists_congr fun id => agrees.uid docId id

theorem Agrees.hasDocument {plain : PlainMap} (agrees : Agrees maps plain) (id : String) :
    maps.hasDocument id = (plain.entries.get? id).isSome := by
  rw [IdMaps.hasDocument, agrees.resolve, Option.isSome_map]

/-- A document that is there keeps its number, another one takes the next. -/
theorem Tracked.upsert (tracked : Tracked zstd maps) (lossless : zstd.Lossless) {id : String}
    {serialized : List UInt8} {mode : SourceWriteMode}
    (fits : (IdMapAction.upsert id serialized mode).Fits zstd maps) {next : IdMaps}
    (stored : maps.upsertDocumentDeferred zstd mode id serialized = some next) :
    Tracked zstd next ∧
      (maps.hasDocument id = true → next.nextDocId = maps.nextDocId ∧
        ∀ docId, (next.uidForDocId docId).isSome = true ↔ (maps.uidForDocId docId).isSome = true) ∧
      (maps.hasDocument id = false → next.nextDocId = maps.nextDocId + 1 ∧
        next.resolveUid id = some maps.nextDocId ∧
        ∀ docId, (next.uidForDocId docId).isSome = true ↔
          docId = maps.nextDocId ∨ (maps.uidForDocId docId).isSome = true) := by
  obtain ⟨plain, agrees⟩ := tracked.agrees
  obtain ⟨next', stored', sound', agrees'⟩ := upsert_agrees lossless tracked.sound agrees fits
  obtain rfl : next = next' := Option.some.inj (stored.symm.trans stored')
  refine ⟨⟨sound', _, agrees'⟩, ?_⟩
  obtain ⟨⟨blob, store⟩, written, _⟩ := Option.bind_eq_some_iff.mp stored
  rw [plainStep, written] at agrees'
  dsimp only at agrees'
  rw [agrees.hasDocument]
  cases known : plain.entries.get? id with
  | some entry =>
    rw [PlainMap.upsert, known] at agrees'
    refine ⟨fun _ => ⟨agrees'.next.trans agrees.next.symm, ?_⟩, by simp⟩
    intro docId
    rw [agrees'.uid_isSome, agrees.uid_isSome]
    simp only [SortedMap.get?_upsert]
    constructor
    · rintro ⟨other, b, found⟩
      split at found
      · cases found
        exact ⟨id, entry.2, known⟩
      · exact ⟨other, b, found⟩
    · rintro ⟨other, b, found⟩
      by_cases here : other = id
      · subst here
        rw [known] at found
        cases found
        exact ⟨other, blob, if_pos rfl⟩
      · exact ⟨other, b, by rw [if_neg here]; exact found⟩
  | none =>
    rw [PlainMap.upsert, known] at agrees'
    refine ⟨by simp, fun _ => ⟨?_, ?_, ?_⟩⟩
    · rw [agrees'.next, agrees.next]
    · rw [agrees'.resolve, SortedMap.get?_upsert, if_pos rfl, agrees.next]
      rfl
    · intro docId
      rw [agrees'.uid_isSome, agrees.uid_isSome, agrees.next]
      simp only [SortedMap.get?_upsert]
      constructor
      · rintro ⟨other, b, found⟩
        split at found
        · cases found
          exact .inl rfl
        · exact .inr ⟨other, b, found⟩
      · rintro (rfl | ⟨other, b, found⟩)
        · exact ⟨id, blob, if_pos rfl⟩
        · refine ⟨other, b, ?_⟩
          rw [if_neg]
          · exact found
          · rintro rfl
            rw [known] at found
            cases found

theorem Tracked.delete (tracked : Tracked zstd maps) (id : String) :
    Tracked zstd (maps.deleteDocumentDeferred id).2 := by
  obtain ⟨plain, agrees⟩ := tracked.agrees
  obtain ⟨sound', agrees'⟩ := delete_agrees tracked.sound agrees id
  exact ⟨sound', _, agrees'⟩

theorem Tracked.densify (tracked : Tracked zstd maps) (lossless : zstd.Lossless)
    (can : maps.CanDensify) {next : IdMaps} (folded : maps.densify zstd = some next) :
    Tracked zstd next ∧ next.nextDocId = maps.nextDocId ∧
      ∀ docId, next.uidForDocId docId = maps.uidForDocId docId := by
  obtain ⟨plain, agrees⟩ := tracked.agrees
  obtain ⟨next', folded', layered, store, count, numbered, uids, blobs⟩ :=
    tracked.sound.layered.densify lossless can.1 tracked.sound.store can.2
  obtain rfl : next = next' := Option.some.inj (folded.symm.trans folded')
  exact ⟨⟨⟨layered, store⟩, plain, agrees.of_same layered count numbered uids blobs⟩, numbered, uids⟩

theorem Tracked.maybeDensify (tracked : Tracked zstd maps) (lossless : zstd.Lossless)
    (can : maps.CanDensify) {budget : Option Nat} {next : IdMaps}
    (folded : maps.maybeDensifyByBudget zstd budget = some next) :
    Tracked zstd next ∧ next.nextDocId = maps.nextDocId ∧
      ∀ docId, next.uidForDocId docId = maps.uidForDocId docId := by
  unfold IdMaps.maybeDensifyByBudget at folded
  split at folded
  · cases folded
    exact ⟨tracked, rfl, fun _ => rfl⟩
  · split at folded
    · cases folded
      exact ⟨tracked, rfl, fun _ => rfl⟩
    · exact tracked.densify lossless can folded

end Tracking

namespace InMemoryIndex

variable (env : Environment Digest)

/- What is handed to the inverted index for a document is accepted. -/
def Indexable (data : InMemoryIndex Digest) (docId : Nat) : Prop :=
  ∀ document ∈ data.storedDocument env docId, ∀ handed ∈ document,
    handed.Visible env.settings.unicode data.mapping

def RebuildFits (data : InMemoryIndex Digest) : Prop :=
  ∀ docId < data.maps.nextDocId, data.Indexable env docId

def AppendFits (data : InMemoryIndex Digest) (newDocIds : List Nat) : Prop :=
  if data.termsFinalized then data.RebuildFits env
  else (∀ docId ∈ newDocIds, data.Indexable env docId) ∧ data.maps.CanDensify

def UpsertFits (data : InMemoryIndex Digest) (id : String) (source : Value) : Prop :=
  (IdMapAction.upsert id (utf8 (env.serde.encode source)) env.sourceWriteMode).Fits env.zstd data.maps

/- The stored documents are the indexed ones and those that are to be appended. -/
structure Ahead (newDocIds : List Nat) (data : InMemoryIndex Digest) : Prop where
  tracked : Tracked env.zstd data.maps
  ranged : data.index.Ranged
  hint : data.index.nextDocIdHint ≤ data.maps.nextDocId
  live : ∀ docId, (data.maps.uidForDocId docId).isSome = true ↔
    data.index.Holds docId ∨ docId ∈ newDocIds
  distinct : newDocIds.Nodup
  fresh : ∀ docId ∈ newDocIds, data.index.nextDocIdHint ≤ docId

variable {env} {data next : InMemoryIndex Digest}

theorem new_ahead (epoch : Nat) (mapping : IndexMapping) :
    (new epoch mapping : InMemoryIndex Digest).Ahead env [] where
  tracked := new_tracked env.zstd epoch
  ranged := DocumentIndex.new_ranged
  hint := le_refl _
  live docId := by
    have unknown : (IdMaps.new epoch).uidForDocId docId = none := by
      simp [IdMaps.uidForDocId, IdMaps.new, DenseIdMaps.uid, DenseIdMaps.default]
    simp [new, unknown, DocumentIndex.not_holds_new]
  distinct := .nil
  fresh := by simp

theorem storedDocuments_spec {docIds : List Nat} {documents : List Document}
    (small : ∀ docId ∈ docIds, docId < 2 ^ 32)
    (handed : data.storedDocuments env docIds = some documents) :
    documents.map Document.docId =
        docIds.filter (fun docId => (data.maps.blobForDocId docId).isSome) ∧
      ∀ document ∈ documents, ∃ docId ∈ docIds, data.storedDocument env docId = some (some document) := by
  induction docIds generalizing documents with
  | nil =>
    cases handed
    exact ⟨rfl, by simp⟩
  | cons docId rest ih =>
    obtain ⟨slots, read, rfl⟩ := Option.map_eq_some_iff.mp handed
    rw [List.mapM_cons] at read
    obtain ⟨slot, one, read⟩ := Option.bind_eq_some_iff.mp read
    obtain ⟨slots', later, result⟩ := Option.bind_eq_some_iff.mp read
    cases result
    obtain ⟨numbers, sources⟩ := @ih slots'.reduceOption
      (fun other member => small other (List.mem_cons_of_mem _ member))
      (by rw [storedDocuments, later]; rfl)
    have narrow := Nat.mod_eq_of_lt (small docId List.mem_cons_self)
    have keep : ∀ document ∈ slots'.reduceOption,
        ∃ other ∈ docId :: rest, data.storedDocument env other = some (some document) := by
      intro document member
      obtain ⟨other, inside, found⟩ := sources document member
      exact ⟨other, List.mem_cons_of_mem _ inside, found⟩
    have whole := one
    unfold storedDocument at one
    split at one
    · rename_i hole
      cases one
      rw [List.filter_cons, hole, List.reduceOption_cons_of_none]
      exact ⟨numbers, keep⟩
    · rename_i blob present
      obtain ⟨parsed, _, result⟩ := Option.bind_eq_some_iff.mp one
      cases result
      rw [List.filter_cons, present, List.reduceOption_cons_of_some, List.map_cons, numbers]
      refine ⟨by simp only [narrow, Option.isSome_some, if_true], ?_⟩
      intro document member
      rcases List.mem_cons.mp member with rfl | member
      · exact ⟨docId, List.mem_cons_self, whole⟩
      · exact keep document member

theorem storedDocument_bounded {docId : Nat} {document : Document} (small : docId < 2 ^ 32)
    (handed : data.storedDocument env docId = some (some document)) : document.docId = docId := by
  unfold storedDocument at handed
  split at handed
  · cases handed
  · obtain ⟨parsed, _, result⟩ := Option.bind_eq_some_iff.mp handed
    cases result
    exact Nat.mod_eq_of_lt small

/-- A batch of stored documents that are new to an index and can be indexed is accepted, and adds
exactly these documents. -/
theorem addDocuments_stored (tracked : Tracked env.zstd data.maps) {docIds : List Nat}
    (distinct : docIds.Nodup) (inside : ∀ docId ∈ docIds, docId < data.maps.nextDocId)
    (indexable : ∀ docId ∈ docIds, data.Indexable env docId) {documents : List Document}
    (handed : data.storedDocuments env docIds = some documents) {index : DocumentIndex Digest}
    (ranged : index.Ranged) (hint : index.nextDocIdHint ≤ data.maps.nextDocId)
    (fresh : ∀ docId ∈ docIds, index.active.docBase ≤ docId ∧ ¬ index.Holds docId) {files : Files} :
    (index.addDocuments env.settings documents data.mapping true files).2.Ranged ∧
      (index.addDocuments env.settings documents data.mapping true files).2.nextDocIdHint ≤
        data.maps.nextDocId ∧
      ∀ docId, (index.addDocuments env.settings documents data.mapping true files).2.Holds docId ↔
        (docId ∈ docIds ∧ (data.maps.uidForDocId docId).isSome = true) ∨ index.Holds docId := by
  have bounded := tracked.sound.layered.bounded
  obtain ⟨numbers, sources⟩ := storedDocuments_spec
    (fun docId member => (inside docId member).trans bounded) handed
  have origin : ∀ document ∈ documents, document.docId ∈ docIds ∧
      data.Indexable env document.docId ∧
      data.storedDocument env document.docId = some (some document) := by
    intro document member
    obtain ⟨docId, listed, found⟩ := sources document member
    have same := storedDocument_bounded ((inside docId listed).trans bounded) found
    rw [same]
    exact ⟨listed, indexable docId listed, found⟩
  have accepted : ∃ next, index.addDocuments env.settings documents data.mapping true files =
      (.ok (), next) := by
    rw [DocumentIndex.addDocuments_ok_iff]
    constructor
    · intro document member
      obtain ⟨listed, visible, found⟩ := origin document member
      obtain ⟨low, dead⟩ := fresh document.docId listed
      refine ⟨low, ?_, visible _ found document rfl⟩
      by_contra live
      rw [Bool.not_eq_false] at live
      exact dead ⟨index.active, List.mem_append_right _ List.mem_cons_self, low, live⟩
    · rw [numbers]
      exact distinct.filter _
  obtain ⟨next, added⟩ := accepted
  obtain ⟨done, capped, held⟩ := DocumentIndex.addDocuments_ranged ranged
    (fun document member => by
      have := inside _ (origin document member).1
      omega) added
  rw [added]
  refine ⟨done, capped _ hint fun document member => inside _ (origin document member).1, ?_⟩
  intro docId
  rw [held, ← tracked.sound.layered.blob_isSome]
  have listed : (∃ document ∈ documents, document.docId = docId) ↔
      docId ∈ docIds ∧ (data.maps.blobForDocId docId).isSome = true := by
    have mapped : docId ∈ documents.map Document.docId ↔
        docId ∈ docIds ∧ (data.maps.blobForDocId docId).isSome = true := by
      rw [numbers, List.mem_filter]
    rwa [List.mem_map] at mapped
  rw [listed]

theorem rebuildIndex_ahead (tracked : Tracked env.zstd data.maps) (fits : data.RebuildFits env)
    {occasion : Occasion} (rebuilt : data.rebuildIndex env occasion = some next) :
    next.Ahead env [] := by
  obtain ⟨documents, handed, result⟩ := Option.bind_eq_some_iff.mp rebuilt
  have emptied := DocumentIndex.clear_eq data.index
  cases result
  rw [emptied]
  obtain ⟨ranged, hint, held⟩ := @addDocuments_stored _ env data tracked
    (List.range data.maps.nextDocId) List.nodup_range (fun docId => List.mem_range.mp)
    (fun docId member => fits docId (List.mem_range.mp member)) documents handed .new
    DocumentIndex.new_ranged (Nat.zero_le _)
    (fun docId _ => ⟨Nat.zero_le _, DocumentIndex.not_holds_new docId⟩) occasion.files
  refine ⟨tracked, ranged, hint, ?_, .nil, by simp⟩
  intro docId
  rw [held]
  simp only [DocumentIndex.not_holds_new, or_false, List.not_mem_nil, List.mem_range]
  refine (and_iff_right_of_imp fun stored => ?_).symm
  obtain ⟨id, found⟩ := Option.isSome_iff_exists.mp stored
  exact tracked.sound.layered.uid_inside found

theorem appendToIndex_ahead (lossless : env.zstd.Lossless) {newDocIds : List Nat}
    (ahead : data.Ahead env newDocIds) (fits : data.AppendFits env newDocIds) {occasion : Occasion}
    (appended : data.appendToIndex env newDocIds occasion = some next) : next.Ahead env [] := by
  unfold appendToIndex at appended
  unfold AppendFits at fits
  split at appended
  · rename_i none_new
    cases appended
    rw [List.isEmpty_iff.mp none_new] at ahead
    exact ahead
  · split at appended
    · rename_i finalized
      rw [if_pos finalized] at fits
      exact rebuildIndex_ahead ahead.tracked fits appended
    · rename_i unfinished
      rw [if_neg unfinished] at fits
      obtain ⟨documents, handed, appended⟩ := Option.bind_eq_some_iff.mp appended
      obtain ⟨flushed, sealed, appended⟩ := Option.bind_eq_some_iff.mp appended
      obtain ⟨maps, folded, result⟩ := Option.bind_eq_some_iff.mp appended
      cases result
      have stored : ∀ docId ∈ newDocIds, (data.maps.uidForDocId docId).isSome = true := fun docId member =>
        (ahead.live docId).mpr (.inr member)
      obtain ⟨ranged, hint, held⟩ := @addDocuments_stored _ env data ahead.tracked newDocIds
        ahead.distinct
        (fun docId member => by
          obtain ⟨id, found⟩ := Option.isSome_iff_exists.mp (stored docId member)
          exact ahead.tracked.sound.layered.uid_inside found)
        fits.1 documents handed data.index ahead.ranged ahead.hint
        (fun docId member => by
          have above := ahead.fresh docId member
          refine ⟨ahead.ranged.hint.trans above, fun old => ?_⟩
          have := ahead.ranged.holds_lt old
          omega) occasion.files
      have unmoved := DocumentIndex.sealing_ranged ranged (.inl sealed)
      obtain ⟨tracked, numbered, uids⟩ := ahead.tracked.maybeDensify lossless fits.2 folded
      refine ⟨tracked, unmoved.ranged, ?_, ?_, .nil, by simp⟩
      · rw [unmoved.hint]
        dsimp only
        rw [numbered]
        exact hint
      · intro docId
        dsimp only
        rw [uids, unmoved.holds, held, ahead.live]
        simp only [List.not_mem_nil, or_false]
        constructor
        · rintro (old | new)
          · exact .inr old
          · exact .inl ⟨new, .inr new⟩
        · rintro (⟨new, _⟩ | old)
          · exact .inr new
          · exact .inl old

theorem finalizeTermsForRefresh_ahead (lossless : env.zstd.Lossless) (ahead : data.Ahead env [])
    (can : data.termsFinalized = false → data.maps.CanDensify) {occasion : Occasion}
    (finalized : data.finalizeTermsForRefresh env occasion = some next) : next.Ahead env [] := by
  unfold finalizeTermsForRefresh at finalized
  split at finalized
  · cases finalized
    exact ahead
  · rename_i unfinished
    obtain ⟨maps, folded, finalized⟩ := Option.bind_eq_some_iff.mp finalized
    obtain ⟨index, sealed, result⟩ := Option.bind_eq_some_iff.mp finalized
    cases result
    have unmoved := @DocumentIndex.sealing_ranged _ _ _ ahead.ranged _ _ 0 (.inr sealed)
    obtain ⟨tracked, numbered, uids⟩ :=
      ahead.tracked.densify lossless (can (by simpa using unfinished)) folded
    refine ⟨tracked, unmoved.ranged, ?_, ?_, .nil, by simp⟩
    · rw [unmoved.hint]
      dsimp only
      rw [numbered]
      exact ahead.hint
    · intro docId
      dsimp only
      rw [uids, unmoved.holds]
      exact ahead.live docId

theorem materializeTerms_ahead {newDocIds : List Nat} (ahead : data.Ahead env newDocIds)
    (files : Files) :
    { data with index := data.index.materializeTerms env.settings files }.Ahead env newDocIds := by
  have unmoved := @DocumentIndex.materializeTerms_ranged _ env.settings _ ahead.ranged files
  refine ⟨ahead.tracked, unmoved.ranged, ?_, ?_, ahead.distinct, ?_⟩
  · rw [unmoved.hint]
    exact ahead.hint
  · intro docId
    rw [unmoved.holds]
    exact ahead.live docId
  · intro docId member
    rw [unmoved.hint]
    exact ahead.fresh docId member

theorem Ahead.upsert (lossless : env.zstd.Lossless) {newDocIds : List Nat}
    (ahead : data.Ahead env newDocIds) {id : String} {source : Value}
    (fits : data.UpsertFits env id source) (absent : data.maps.hasDocument id = false)
    (stored : data.upsertDocumentDeferred env id source = some next) :
    next.Ahead env (newDocIds ++ [data.maps.nextDocId]) ∧
      next.maps.resolveUid id = some data.maps.nextDocId := by
  obtain ⟨maps, upserted, result⟩ := Option.bind_eq_some_iff.mp stored
  cases result
  obtain ⟨tracked, _, inserted⟩ := ahead.tracked.upsert lossless fits upserted
  obtain ⟨numbered, resolved, uids⟩ := inserted absent
  have below : ∀ docId ∈ newDocIds, docId < data.maps.nextDocId := by
    intro docId member
    obtain ⟨uid, found⟩ := Option.isSome_iff_exists.mp ((ahead.live docId).mpr (.inr member))
    exact ahead.tracked.sound.layered.uid_inside found
  refine ⟨⟨tracked, ahead.ranged, ?_, ?_, ?_, ?_⟩, resolved⟩
  · dsimp only
    rw [numbered]
    exact Nat.le_succ_of_le ahead.hint
  · intro docId
    dsimp only
    rw [uids, ahead.live, List.mem_append, List.mem_singleton]
    constructor
    · rintro (new | old | waiting)
      · exact .inr (.inr new)
      · exact .inl old
      · exact .inr (.inl waiting)
    · rintro (old | waiting | new)
      · exact .inr (.inl old)
      · exact .inr (.inr waiting)
      · exact .inl new
  · refine List.nodup_append.mpr ⟨ahead.distinct, List.nodup_singleton _, ?_⟩
    intro docId member other here
    rw [List.mem_singleton] at here
    rintro rfl
    exact absurd (below docId member) (by omega)
  · intro docId member
    rcases List.mem_append.mp member with member | member
    · exact ahead.fresh docId member
    · rw [List.mem_singleton.mp member]
      exact ahead.hint

theorem upsert_tracked (lossless : env.zstd.Lossless) (tracked : Tracked env.zstd data.maps)
    {id : String} {source : Value} (fits : data.UpsertFits env id source)
    (stored : data.upsertDocumentDeferred env id source = some next) :
    Tracked env.zstd next.maps := by
  obtain ⟨maps, upserted, result⟩ := Option.bind_eq_some_iff.mp stored
  cases result
  exact (tracked.upsert lossless fits upserted).1

end InMemoryIndex

section Bulk

variable (env : Environment Digest)

def OperationFits (store : MemoryStore Digest) : DocumentWriteOperation → Prop
  | .index index id source _ =>
    ((store.createIndexIfMissing env index).data index).UpsertFits env id source
  | .create index id source =>
    ((store.createIndexIfMissing env index).data index).maps.hasDocument id = false →
      ((store.createIndexIfMissing env index).data index).UpsertFits env id source
  | .delete _ _ => True

namespace BulkState

def FinishFits (state : BulkState Digest) : Prop :=
  ∀ index ∈ state.touched.keys, ∀ data ∈ state.store.indices.get? index,
    if (state.needsFullRebuild.get? index).isSome then data.RebuildFits env
    else data.AppendFits env ((state.newDocIds.get? index).getD [])

def FitsAll (state : BulkState Digest) : List DocumentWriteOperation → Prop
  | [] => state.FinishFits env
  | operation :: rest =>
    OperationFits env state.store operation ∧ ∀ next ∈ state.apply env operation, next.FitsAll rest

/- Every index is to be rebuilt, or is ahead by what is to be appended to it. -/
structure Tracks (state : BulkState Digest) : Prop where
  indices : ∀ index data, state.store.indices.get? index = some data →
    Tracked env.zstd data.maps ∧ ((state.needsFullRebuild.get? index).isSome = true ∨
      data.Ahead env ((state.newDocIds.get? index).getD []))
  touched : ∀ index, index ∉ state.touched.keys →
    state.needsFullRebuild.get? index = none ∧ state.newDocIds.get? index = none
  present : ∀ index, (state.newDocIds.get? index).isSome = true →
    (state.store.indices.get? index).isSome = true

variable {env} {state after : BulkState Digest}

/-- The index an operation writes to, whether it was there or not. -/
theorem Tracks.data (tracks : state.Tracks env) (index : String) :
    Tracked env.zstd ((state.store.createIndexIfMissing env index).data index).maps ∧
      ((state.needsFullRebuild.get? index).isSome = true ∨
        ((state.store.createIndexIfMissing env index).data index).Ahead env
          ((state.newDocIds.get? index).getD [])) := by
  cases found : state.store.indices.get? index with
  | some data =>
    have same : (state.store.createIndexIfMissing env index).data index = data := by
      rw [MemoryStore.createIndexIfMissing, if_pos (by rw [found]; rfl), MemoryStore.data, found]
      rfl
    rw [same]
    exact tracks.indices index data found
  | none =>
    have fresh : (state.store.createIndexIfMissing env index).data index =
        .new (state.store.epochs % 2 ^ 64) (env.templateMapping index) := by
      rw [MemoryStore.createIndexIfMissing, if_neg (by rw [found]; simp), MemoryStore.data,
        MemoryStore.get?_insertNew, if_pos rfl]
      rfl
    have nothing : state.newDocIds.get? index = none := by
      by_contra some_new
      have := tracks.present index (Option.isSome_iff_ne_none.mpr some_new)
      rw [found] at this
      cases this
    rw [fresh, nothing]
    exact ⟨new_tracked _ _, .inr (InMemoryIndex.new_ahead _ _)⟩

theorem Tracks.change (tracks : state.Tracks env) (index : String) (data : InMemoryIndex Digest)
    (store : ∀ other, after.store.indices.get? other =
      if other = index then some data else state.store.indices.get? other)
    (tracked : Tracked env.zstd data.maps)
    (here : (after.needsFullRebuild.get? index).isSome = true ∨
      data.Ahead env ((after.newDocIds.get? index).getD []))
    (needs : ∀ other, other ≠ index →
      after.needsFullRebuild.get? other = state.needsFullRebuild.get? other)
    (news : ∀ other, other ≠ index → after.newDocIds.get? other = state.newDocIds.get? other)
    (touched : ∀ other, other ∉ after.touched.keys →
      after.needsFullRebuild.get? other = none ∧ after.newDocIds.get? other = none) :
    after.Tracks env := by
  refine ⟨?_, touched, ?_⟩
  · intro other data' found
    rw [store] at found
    by_cases same : other = index
    · rw [if_pos same] at found
      cases found
      rw [same]
      exact ⟨tracked, here⟩
    · rw [if_neg same] at found
      rw [needs other same, news other same]
      exact tracks.indices other data' found
  · intro other new
    rw [store]
    split
    · rfl
    · rename_i apart
      rw [news other apart] at new
      exact tracks.present other new

theorem get?_create_put (store : MemoryStore Digest) (index other : String)
    (data : InMemoryIndex Digest) :
    ((store.createIndexIfMissing env index).put index data).indices.get? other =
      if other = index then some data else store.indices.get? other := by
  rw [MemoryStore.get?_put]
  by_cases here : other = index
  · rw [if_pos here, if_pos here]
  · rw [if_neg here, if_neg here]
    exact MemoryStore.sameBut_createIndexIfMissing env store (List.mem_singleton.mpr rfl) other
      (by simpa using here)

theorem Tracks.answer (tracks : state.Tracks env) (result : DocumentWriteResult) :
    (state.answer result).Tracks env :=
  ⟨tracks.indices, tracks.touched, tracks.present⟩

/-- An index that is going to be rebuilt may be written to in any way. -/
theorem Tracks.rebuild (tracks : state.Tracks env) (index : String) {data : InMemoryIndex Digest}
    {store : MemoryStore Digest} (tracked : Tracked env.zstd data.maps)
    (changed : ∀ other, store.indices.get? other =
      if other = index then some data else state.store.indices.get? other) :
    (({ state with store }.touch index).rebuild index).Tracks env := by
  refine tracks.change index data changed tracked (.inl ?_) ?_ ?_ ?_
  · simp [BulkState.rebuild]
  · intro other apart
    simp [BulkState.rebuild, touch, apart]
  · intro other _
    rfl
  · intro other outside
    simp only [BulkState.rebuild, touch, SortedMap.mem_keys_upsert, not_or] at outside
    simpa [BulkState.rebuild, touch, outside.1] using tracks.touched other outside.2

theorem Tracks.insertion (lossless : env.zstd.Lossless) (tracks : state.Tracks env)
    {index id : String} {source : Value} {data : InMemoryIndex Digest}
    (fits : ((state.store.createIndexIfMissing env index).data index).UpsertFits env id source)
    (absent : ((state.store.createIndexIfMissing env index).data index).maps.hasDocument id = false)
    (stored : ((state.store.createIndexIfMissing env index).data index).upsertDocumentDeferred env id
      source = some data) :
    (({ state with store := (state.store.createIndexIfMissing env index).put index data }.touch
      index).append index (data.maps.resolveUid id)).Tracks env := by
  obtain ⟨tracked, here⟩ := tracks.data index
  have tracked' := InMemoryIndex.upsert_tracked lossless tracked fits stored
  have elsewhere : ∀ (docId : Option Nat) (other : String), other ≠ index →
      (({ state with store := (state.store.createIndexIfMissing env index).put index data }.touch
        index).append index docId).newDocIds.get? other = state.newDocIds.get? other := by
    intro docId other apart
    cases docId with
    | none => rfl
    | some docId => simp [append, touch, apart]
  have rebuilds : ∀ docId : Option Nat,
      (({ state with store := (state.store.createIndexIfMissing env index).put index data }.touch
        index).append index docId).needsFullRebuild = state.needsFullRebuild := by
    intro docId
    cases docId <;> rfl
  refine tracks.change index data ?_ tracked' ?_ ?_ ?_ ?_
  · intro other
    rw [store_append, store_touch]
    exact get?_create_put _ _ _ _
  · rw [rebuilds]
    rcases here with needed | ahead
    · exact .inl needed
    · obtain ⟨ahead', resolved⟩ := ahead.upsert lossless fits absent stored
      refine .inr ?_
      rw [resolved]
      simpa [append, touch] using ahead'
  · intro other _
    rw [rebuilds]
  · exact elsewhere _
  · intro other outside
    simp only [touched_append, touch, SortedMap.mem_keys_upsert, not_or] at outside
    rw [rebuilds, elsewhere _ other outside.1]
    exact tracks.touched other outside.2

theorem apply_tracks (lossless : env.zstd.Lossless) (tracks : state.Tracks env)
    {operation : DocumentWriteOperation} (fits : OperationFits env state.store operation)
    (applied : state.apply env operation = some after) : after.Tracks env := by
  cases operation with
  | index index id source status =>
    simp only [apply, Option.bind_eq_bind, Option.bind_eq_some_iff, Option.pure_def] at applied
    obtain ⟨data, stored, result⟩ := applied
    cases present : ((state.store.createIndexIfMissing env index).data index).maps.hasDocument id with
    | true =>
      rw [present, if_pos rfl] at result
      cases result
      exact (tracks.rebuild index
        (InMemoryIndex.upsert_tracked lossless (tracks.data index).1 fits stored)
        fun other => get?_create_put _ _ _ _).answer _
    | false =>
      rw [present, if_neg (by simp)] at result
      cases result
      exact (tracks.insertion lossless fits present stored).answer _
  | create index id source =>
    simp only [apply] at applied
    split at applied
    · rename_i present
      cases applied
      rw [MemoryStore.createIndexIfMissing_of_hasDocument present]
      exact tracks.answer _
    · rename_i absent
      rw [Bool.not_eq_true] at absent
      simp only [Option.bind_eq_bind, Option.bind_eq_some_iff, Option.pure_def] at applied
      obtain ⟨data, stored, result⟩ := applied
      cases result
      exact (tracks.insertion lossless (fits absent) absent stored).answer _
  | delete index id =>
    simp only [apply] at applied
    split at applied
    · cases applied
      exact tracks.answer _
    · rename_i data found
      cases applied
      have tracked : Tracked env.zstd (data.deleteDocumentDeferred id).2.maps :=
        (tracks.indices index data found).1.delete id
      by_cases deleted : (data.deleteDocumentDeferred id).1 = true
      · rw [if_pos deleted]
        exact (tracks.rebuild index tracked fun other => MemoryStore.get?_put ..).answer _
      · rw [if_neg deleted, deleteDocumentDeferred_of_absent deleted]
        have same : { state with store := state.store.put index data }.Tracks env :=
          tracks.change index data (fun other => MemoryStore.get?_put ..)
            (tracks.indices index data found).1 (tracks.indices index data found).2 (fun _ _ => rfl)
            (fun _ _ => rfl) tracks.touched
        exact same.answer _

def Ready (env : Environment Digest) (state : BulkState Digest) (index : String)
    (data : InMemoryIndex Digest) : Prop :=
  Tracked env.zstd data.maps ∧
    ((state.needsFullRebuild.get? index).isSome = true ∨
      data.Ahead env ((state.newDocIds.get? index).getD [])) ∧
    if (state.needsFullRebuild.get? index).isSome then data.RebuildFits env
    else data.AppendFits env ((state.newDocIds.get? index).getD [])

theorem finishIndex_ahead (lossless : env.zstd.Lossless) {occasions : Occasions}
    {store next : MemoryStore Digest} {index : String}
    (ready : ∀ data, store.indices.get? index = some data → state.Ready env index data)
    (finished : state.finishIndex env occasions store index = some next) :
    ∀ data, next.indices.get? index = some data → data.Ahead env [] := by
  unfold finishIndex at finished
  split at finished
  · rename_i missing
    cases finished
    intro data found
    rw [missing] at found
    cases found
  · rename_i before there
    obtain ⟨tracked, ahead, fits⟩ := ready before there
    split at finished
    · rename_i needed
      rw [if_pos needed] at fits
      obtain ⟨rebuilt, built, result⟩ := Option.bind_eq_some_iff.mp finished
      cases result
      intro data found
      rw [MemoryStore.get?_put, if_pos rfl] at found
      cases found
      exact InMemoryIndex.rebuildIndex_ahead tracked fits built
    · rename_i free
      rw [if_neg free] at fits
      have ahead := ahead.resolve_left free
      split at finished
      · rename_i newIds new
        obtain ⟨appended, built, result⟩ := Option.bind_eq_some_iff.mp finished
        cases result
        intro data found
        rw [MemoryStore.get?_put, if_pos rfl] at found
        cases found
        rw [new] at ahead fits
        exact InMemoryIndex.appendToIndex_ahead lossless ahead fits built
      · rename_i none_new
        cases finished
        intro data found
        obtain rfl : before = data := Option.some.inj (there.symm.trans found)
        rw [none_new] at ahead
        exact ahead

theorem finishAll_ahead (lossless : env.zstd.Lossless) {occasions : Occasions} (indices : List String)
    (distinct : indices.Nodup) {store next : MemoryStore Digest}
    (ready : ∀ index data, store.indices.get? index = some data →
      if index ∈ indices then state.Ready env index data else data.Ahead env [])
    (finished : indices.foldlM (state.finishIndex env occasions) store = some next) :
    ∀ index data, next.indices.get? index = some data → data.Ahead env [] := by
  induction indices generalizing store with
  | nil =>
    cases finished
    intro index data found
    simpa using ready index data found
  | cons index rest ih =>
    rw [List.foldlM_cons] at finished
    obtain ⟨middle, one, later⟩ := Option.bind_eq_some_iff.mp finished
    obtain ⟨apart, distinct⟩ := List.nodup_cons.mp distinct
    refine ih distinct ?_ later
    intro other data found
    by_cases here : other = index
    · subst here
      rw [if_neg apart]
      exact finishIndex_ahead lossless
        (fun data found => by simpa using ready other data found) one data found
    · have same := finishIndex_sameBut (List.mem_singleton.mpr rfl) one other (by simpa using here)
      rw [same] at found
      have before := ready other data found
      simpa [here] using before

end BulkState

end Bulk

namespace MemoryStore

variable (env : Environment Digest)

/- In every index the stored documents are the indexed ones. -/
def Settled (store : MemoryStore Digest) : Prop :=
  ∀ index data, store.indices.get? index = some data → data.Ahead env []

/- What a single write asks of the index it is about: the id maps have room for it, and every
document that is handed to the inverted index is accepted. -/
def UpsertAndRebuildFits (data : InMemoryIndex Digest) (id : String) (source : Value) : Prop :=
  data.UpsertFits env id source ∧
    ∀ next ∈ data.upsertDocumentDeferred env id source, next.RebuildFits env

def existing (store : MemoryStore Digest) (index : String) : InMemoryIndex Digest :=
  (if (store.indices.get? index).isSome then store else store.insertNew index .default).data index

def Fits (store : MemoryStore Digest) : Write → Prop
  | .indexDocument index id source =>
    UpsertAndRebuildFits env ((store.createIndexIfMissing env index).data index) id source
  | .createDocument index id source =>
    ((store.createIndexIfMissing env index).data index).maps.hasDocument id = false →
      UpsertAndRebuildFits env ((store.createIndexIfMissing env index).data index) id source
  | .deleteDocument index id =>
    ∀ data ∈ store.indices.get? index, (data.deleteDocumentDeferred id).1 = true →
      (data.deleteDocumentDeferred id).2.RebuildFits env
  | .applyDocumentWrites operations => (BulkState.start store).FitsAll env operations
  | .setMapping index mapping => { store.existing index with mapping }.RebuildFits env
  | .mergeFieldMappings index newFields =>
    ∀ data ∈ store.indices.get? index, ∀ merged ∈ mergeFields data.mapping newFields,
      { data with mapping := merged }.RebuildFits env
  | .deleteIndex _ => True
  | .refreshIndex index =>
    ∀ data ∈ store.indices.get? index, data.termsFinalized = false → data.maps.CanDensify

variable {env} {store next : MemoryStore Digest}

theorem Settled.put (settled : store.Settled env) (index : String) {data : InMemoryIndex Digest}
    (ahead : data.Ahead env []) : (store.put index data).Settled env := by
  intro other data' found
  rw [get?_put] at found
  split at found
  · cases found
    exact ahead
  · exact settled other data' found

theorem Settled.insertNew (settled : store.Settled env) (index : String) (mapping : IndexMapping) :
    (store.insertNew index mapping).Settled env := by
  intro other data' found
  rw [get?_insertNew] at found
  split at found
  · cases found
    exact InMemoryIndex.new_ahead _ _
  · exact settled other data' found

theorem Settled.createIndexIfMissing (settled : store.Settled env) (index : String) :
    (store.createIndexIfMissing env index).Settled env := by
  unfold MemoryStore.createIndexIfMissing
  split
  · exact settled
  · exact settled.insertNew index _

theorem Settled.data (settled : store.Settled env) (index : String) :
    (store.data index).Ahead env [] := by
  unfold MemoryStore.data
  cases found : store.indices.get? index with
  | none => exact InMemoryIndex.new_ahead _ _
  | some data => exact settled index data found

theorem upsertDocument_ahead (lossless : env.zstd.Lossless) {data last : InMemoryIndex Digest}
    (tracked : Tracked env.zstd data.maps) {id : String} {source : Value}
    (fits : UpsertAndRebuildFits env data id source) {occasion : Occasion}
    (upserted : data.upsertDocument env id source occasion = some last) : last.Ahead env [] := by
  obtain ⟨next, stored, rebuilt⟩ := Option.bind_eq_some_iff.mp upserted
  exact InMemoryIndex.rebuildIndex_ahead
    (InMemoryIndex.upsert_tracked lossless tracked fits.1 stored) (fits.2 next stored) rebuilt

theorem setMapping_ahead {data last : InMemoryIndex Digest} (tracked : Tracked env.zstd data.maps)
    {mapping : IndexMapping} (fits : { data with mapping }.RebuildFits env) {occasion : Occasion}
    (replaced : data.setMapping env mapping occasion = some last) : last.Ahead env [] :=
  @InMemoryIndex.rebuildIndex_ahead _ env { data with mapping } last tracked fits occasion replaced

theorem applyAll_settled (lossless : env.zstd.Lossless) {state last : BulkState Digest}
    (tracks : state.Tracks env) {operations : List DocumentWriteOperation}
    (fits : state.FitsAll env operations) (applied : state.applyAll env operations = some last) :
    last.Tracks env ∧ last.FinishFits env := by
  induction operations generalizing state with
  | nil =>
    cases applied
    exact ⟨tracks, fits⟩
  | cons operation rest ih =>
    obtain ⟨next, one, later⟩ := Option.bind_eq_some_iff.mp applied
    exact ih (BulkState.apply_tracks lossless tracks fits.1 one) (fits.2 next one) later

theorem applyDocumentWrites_settled (lossless : env.zstd.Lossless) (settled : store.Settled env)
    {operations : List DocumentWriteOperation} (fits : store.Fits env (.applyDocumentWrites operations))
    {occasions : Occasions} {results : List DocumentWriteResult} {touched : List String}
    (applied : store.applyDocumentWrites env operations occasions = some (results, touched, next)) :
    next.Settled env := by
  simp only [applyDocumentWrites, Option.bind_eq_bind, Option.bind_eq_some_iff, Option.pure_def]
    at applied
  obtain ⟨state, all, last, finished, result⟩ := applied
  cases result
  have started : (BulkState.start store).Tracks env := by
    refine ⟨?_, ?_, ?_⟩
    · intro index data found
      have ahead := settled index data found
      refine ⟨ahead.tracked, .inr ?_⟩
      simpa [BulkState.start] using ahead
    · simp [BulkState.start]
    · simp [BulkState.start]
  obtain ⟨tracks, ready⟩ := applyAll_settled lossless started fits all
  refine BulkState.finishAll_ahead lossless _ (state.touched.keys_nodup) ?_ finished
  intro index data found
  obtain ⟨tracked, ahead⟩ := tracks.indices index data found
  split
  · rename_i member
    exact ⟨tracked, ahead, ready index member data found⟩
  · rename_i outside
    obtain ⟨untouched, nothing⟩ := tracks.touched index outside
    rw [untouched, nothing] at ahead
    simpa using ahead

/-- A write that fits leaves the stored and the indexed documents the same. -/
theorem update_settled (lossless : env.zstd.Lossless) (settled : store.Settled env) {write : Write}
    (fits : store.Fits env write) {occasions : Occasions} {touched : List String}
    (updated : store.update env occasions write = some (touched, next)) : next.Settled env := by
  cases write with
  | indexDocument index id source =>
    obtain ⟨last, updated, result⟩ := Option.bind_eq_some_iff.mp updated
    cases result
    have created := settled.createIndexIfMissing index
    obtain ⟨data, upserted, result⟩ := Option.bind_eq_some_iff.mp updated
    cases result
    exact created.put index (upsertDocument_ahead lossless (created.data index).tracked fits upserted)
  | createDocument index id source =>
    obtain ⟨⟨done, last⟩, updated, result⟩ := Option.bind_eq_some_iff.mp updated
    cases result
    have created := settled.createIndexIfMissing index
    simp only [createDocument] at updated
    split at updated
    · cases updated
      exact created
    · rename_i absent
      obtain ⟨data, upserted, result⟩ := Option.bind_eq_some_iff.mp updated
      cases result
      exact created.put index (upsertDocument_ahead lossless (created.data index).tracked
        (fits (by simpa using absent)) upserted)
  | deleteDocument index id =>
    obtain ⟨last, updated, result⟩ := Option.bind_eq_some_iff.mp updated
    cases result
    unfold deleteDocument at updated
    split at updated
    · cases updated
      exact settled
    · rename_i data found
      have ahead := settled index data found
      obtain ⟨rest, deleted, result⟩ := Option.bind_eq_some_iff.mp updated
      cases result
      refine settled.put index ?_
      simp only [InMemoryIndex.deleteDocument] at deleted
      split at deleted
      · rename_i gone
        exact InMemoryIndex.rebuildIndex_ahead (ahead.tracked.delete id) (fits data found gone) deleted
      · rename_i absent
        rw [BulkState.deleteDocumentDeferred_of_absent absent] at deleted
        cases deleted
        exact ahead
  | applyDocumentWrites operations =>
    obtain ⟨⟨results, touched, last⟩, updated, result⟩ := Option.bind_eq_some_iff.mp updated
    cases result
    exact applyDocumentWrites_settled lossless settled fits updated
  | setMapping index mapping =>
    obtain ⟨last, updated, result⟩ := Option.bind_eq_some_iff.mp updated
    cases result
    obtain ⟨data, rebuilt, result⟩ := Option.bind_eq_some_iff.mp updated
    cases result
    have opened : (if (store.indices.get? index).isSome then store
        else store.insertNew index .default).Settled env := by
      split
      · exact settled
      · exact settled.insertNew index _
    exact opened.put index (setMapping_ahead (opened.data index).tracked fits rebuilt)
  | mergeFieldMappings index newFields =>
    obtain ⟨⟨merged, last⟩, updated, result⟩ := Option.bind_eq_some_iff.mp updated
    cases result
    unfold mergeFieldMappings at updated
    split at updated
    · cases updated
      exact settled
    · rename_i data found
      split at updated
      · cases updated
        exact settled
      · rename_i mapping joined
        obtain ⟨rebuilt, built, result⟩ := Option.bind_eq_some_iff.mp updated
        cases result
        exact settled.put index (setMapping_ahead (settled index data found).tracked
          (fits data found mapping joined) built)
  | deleteIndex index =>
    cases updated
    intro other data found
    rw [deleteIndex, SortedMap.get?_erase] at found
    split at found
    · cases found
    · exact settled other data found
  | refreshIndex index =>
    obtain ⟨last, updated, result⟩ := Option.bind_eq_some_iff.mp updated
    cases result
    unfold refreshIndex at updated
    split at updated
    · cases updated
      exact settled
    · rename_i data found
      obtain ⟨refreshed, finalized, result⟩ := Option.bind_eq_some_iff.mp updated
      cases result
      exact settled.put index (InMemoryIndex.finalizeTermsForRefresh_ahead lossless
        (settled index data found) (fits data found) finalized)

end MemoryStore

section Runs

variable (env : Environment Digest)

/- What happens to the store: writes, and searches that build the deferred terms. -/
inductive StoreAction where
  | write (write : Write) (occasions : Occasions)
  | ensureTermsReady (index : String) (occasions : Occasions)

def storeStep (store : MemoryStore Digest) : StoreAction → Option (MemoryStore Digest)
  | .write write occasions => (store.update env occasions write).map Prod.snd
  | .ensureTermsReady index occasions => some (store.ensureTermsReady env index occasions)

def storeRun (store : MemoryStore Digest) : List StoreAction → Option (MemoryStore Digest)
  | [] => some store
  | action :: rest => do
    let next ← storeStep env store action
    storeRun next rest

def ActionFits (store : MemoryStore Digest) : StoreAction → Prop
  | .write write _ => store.Fits env write
  | .ensureTermsReady _ _ => True

def RunFits (store : MemoryStore Digest) : List StoreAction → Prop
  | [] => True
  | action :: rest =>
    ActionFits env store action ∧ ∀ next ∈ storeStep env store action, RunFits next rest

variable {env}

theorem storeStep_settled (lossless : env.zstd.Lossless) {store next : MemoryStore Digest}
    (settled : store.Settled env) {action : StoreAction} (fits : ActionFits env store action)
    (stepped : storeStep env store action = some next) : next.Settled env := by
  cases action with
  | write write occasions =>
    obtain ⟨⟨touched, last⟩, updated, result⟩ := Option.map_eq_some_iff.mp stepped
    cases result
    exact MemoryStore.update_settled lossless settled fits updated
  | ensureTermsReady index occasions =>
    cases stepped
    unfold MemoryStore.ensureTermsReady
    split
    · exact settled
    · rename_i data found
      exact settled.put index (InMemoryIndex.materializeTerms_ahead (settled index data found) _)

theorem storeRun_settled (lossless : env.zstd.Lossless) {actions : List StoreAction}
    {store last : MemoryStore Digest} (settled : store.Settled env)
    (fits : RunFits env store actions) (finished : storeRun env store actions = some last) :
    last.Settled env := by
  induction actions generalizing store with
  | nil =>
    cases finished
    exact settled
  | cons action rest ih =>
    obtain ⟨next, stepped, later⟩ := Option.bind_eq_some_iff.mp finished
    exact ih (storeStep_settled lossless settled fits.1 stepped) (fits.2 next stepped) later

/-- In every run in which the documents handed to the inverted index are accepted, the documents it
holds are those that are stored. -/
theorem stored_documents_are_indexed (env : Environment Digest) (lossless : env.zstd.Lossless)
    (actions : List StoreAction) (fits : RunFits env .empty actions) (last : MemoryStore Digest)
    (finished : storeRun env .empty actions = some last) :
    ∀ index data, last.indices.get? index = some data → ∀ docId,
      docId ∈ data.index.docIds ↔ (data.maps.uidForDocId docId).isSome = true := by
  have started : (MemoryStore.empty : MemoryStore Digest).Settled env := by
    intro index data found
    simp [MemoryStore.empty] at found
  intro index data found docId
  have ahead := storeRun_settled lossless started fits finished index data found
  rw [ahead.ranged.mem_docIds, ahead.live]
  simp

end Runs

section Sample

instance (env : Environment Digest) (data : InMemoryIndex Digest) (docId : Nat) :
    Decidable (data.Indexable env docId) :=
  inferInstanceAs (Decidable (∀ document ∈ data.storedDocument env docId, ∀ handed ∈ document,
    handed.Visible env.settings.unicode data.mapping))

instance (env : Environment Digest) (data : InMemoryIndex Digest) : Decidable (data.RebuildFits env) :=
  inferInstanceAs (Decidable (∀ docId < data.maps.nextDocId, data.Indexable env docId))

instance (maps : IdMaps) : Decidable maps.CanDensify :=
  inferInstanceAs (Decidable (_ ∧ _ ≤ _ ∧ _ ≤ _))

instance (env : Environment Digest) (data : InMemoryIndex Digest) (newDocIds : List Nat) :
    Decidable (data.AppendFits env newDocIds) :=
  inferInstanceAs (Decidable (if data.termsFinalized then data.RebuildFits env
    else (∀ docId ∈ newDocIds, data.Indexable env docId) ∧ data.maps.CanDensify))

instance (env : Environment Digest) (data : InMemoryIndex Digest) (id : String) (source : Value) :
    Decidable (data.UpsertFits env id source) :=
  inferInstanceAs (Decidable (IdMapAction.Fits ..))

instance (env : Environment Digest) (store : MemoryStore Digest) (operation : DocumentWriteOperation) :
    Decidable (OperationFits env store operation) :=
  match operation with
  | .index _ _ _ _ => inferInstanceAs (Decidable (InMemoryIndex.UpsertFits ..))
  | .create _ _ _ => inferInstanceAs (Decidable (_ = false → InMemoryIndex.UpsertFits ..))
  | .delete _ _ => .isTrue trivial

instance (env : Environment Digest) (state : BulkState Digest) : Decidable (state.FinishFits env) :=
  inferInstanceAs (Decidable (∀ index ∈ state.touched.keys, ∀ data ∈ state.store.indices.get? index,
    if (state.needsFullRebuild.get? index).isSome then data.RebuildFits env
    else data.AppendFits env ((state.newDocIds.get? index).getD [])))

instance bulkFitsDecidable (env : Environment Digest) : (state : BulkState Digest) →
    (operations : List DocumentWriteOperation) → Decidable (state.FitsAll env operations)
  | state, [] => inferInstanceAs (Decidable (state.FinishFits env))
  | state, operation :: rest =>
    have : ∀ next : BulkState Digest, Decidable (next.FitsAll env rest) := fun next =>
      bulkFitsDecidable env next rest
    inferInstanceAs (Decidable (OperationFits env state.store operation ∧
      ∀ next ∈ state.apply env operation, next.FitsAll env rest))

instance (env : Environment Digest) (data : InMemoryIndex Digest) (id : String) (source : Value) :
    Decidable (MemoryStore.UpsertAndRebuildFits env data id source) :=
  inferInstanceAs (Decidable (data.UpsertFits env id source ∧
    ∀ next ∈ data.upsertDocumentDeferred env id source, next.RebuildFits env))

instance (env : Environment Digest) (store : MemoryStore Digest) (write : Write) :
    Decidable (store.Fits env write) :=
  match write with
  | .indexDocument _ _ _ => inferInstanceAs (Decidable (MemoryStore.UpsertAndRebuildFits ..))
  | .createDocument _ _ _ =>
    inferInstanceAs (Decidable (_ = false → MemoryStore.UpsertAndRebuildFits ..))
  | .deleteDocument index id =>
    inferInstanceAs (Decidable (∀ data ∈ store.indices.get? index,
      (data.deleteDocumentDeferred id).1 = true →
        (data.deleteDocumentDeferred id).2.RebuildFits env))
  | .applyDocumentWrites operations =>
    inferInstanceAs (Decidable ((BulkState.start store).FitsAll env operations))
  | .setMapping _ _ => inferInstanceAs (Decidable (InMemoryIndex.RebuildFits ..))
  | .mergeFieldMappings index newFields =>
    inferInstanceAs (Decidable (∀ data ∈ store.indices.get? index,
      ∀ merged ∈ MemoryStore.mergeFields data.mapping newFields,
        { data with mapping := merged }.RebuildFits env))
  | .deleteIndex _ => .isTrue trivial
  | .refreshIndex index =>
    inferInstanceAs (Decidable (∀ data ∈ store.indices.get? index,
      data.termsFinalized = false → data.maps.CanDensify))

instance (env : Environment Digest) (store : MemoryStore Digest) (action : StoreAction) :
    Decidable (ActionFits env store action) :=
  match action with
  | .write write _ => inferInstanceAs (Decidable (store.Fits env write))
  | .ensureTermsReady _ _ => .isTrue trivial

instance runFitsDecidable (env : Environment Digest) : (store : MemoryStore Digest) →
    (actions : List StoreAction) → Decidable (RunFits env store actions)
  | _, [] => .isTrue trivial
  | store, action :: rest =>
    have : ∀ next : MemoryStore Digest, Decidable (RunFits env next rest) := fun next =>
      runFitsDecidable env next rest
    inferInstanceAs (Decidable (ActionFits env store action ∧
      ∀ next ∈ storeStep env store action, RunFits env next rest))

def titledSource : Value := .object [("title", .string "rust")]

def blankSource : Value := .object [(" ", .string "rust")]

def libraryEnvironment : Environment (List UInt8) := sampleEnvironment [titledSource, blankSource]

def titledActions : List StoreAction :=
  [.write (.indexDocument "books" "1" titledSource) sampleOccasions,
    .write (.applyDocumentWrites [.create "books" "2" titledSource]) sampleOccasions,
    .write (.refreshIndex "books") sampleOccasions,
    .write (.applyDocumentWrites [.create "books" "2" titledSource, .delete "books" "1"])
      sampleOccasions]

def blankActions : List StoreAction :=
  [.write (.indexDocument "books" "1" titledSource) sampleOccasions,
    .write (.indexDocument "books" "2" blankSource) sampleOccasions]

theorem stored_documents_are_indexed_around_refresh :
    RunFits libraryEnvironment .empty titledActions ∧
      ∃ last data, storeRun libraryEnvironment .empty titledActions = some last ∧
        last.indices.get? "books" = some data ∧ 1 ∈ data.index.docIds ∧ 0 ∉ data.index.docIds := by
  have fits : RunFits libraryEnvironment .empty titledActions := by decide +kernel
  have evaluated : ((storeRun libraryEnvironment .empty titledActions).bind fun last =>
      (last.indices.get? "books").map fun data => [0, 1].map fun docId =>
        (data.maps.uidForDocId docId).isSome) = some [false, true] := by decide +kernel
  obtain ⟨last, finished, read⟩ := Option.bind_eq_some_iff.mp evaluated
  obtain ⟨data, found, stored⟩ := Option.map_eq_some_iff.mp read
  have agree := stored_documents_are_indexed libraryEnvironment storedFrame_lossless titledActions
    fits last finished "books" data found
  simp only [List.map_cons, List.map_nil, List.cons.injEq] at stored
  refine ⟨fits, last, data, finished, found, ?_, ?_⟩
  · rw [agree]
    exact stored.2.1
  · rw [agree, stored.1]
    simp

/-- One document with a blank field name, and no document is indexed any more. -/
theorem blank_field_name_empties_index :
    ∃ last data, storeRun libraryEnvironment .empty blankActions = some last ∧
      last.indices.get? "books" = some data ∧ data.index.docIds = [] ∧
      data.maps.uidForDocId 0 = some "1" ∧ data.maps.uidForDocId 1 = some "2" := by
  have evaluated : ((storeRun libraryEnvironment .empty blankActions).bind fun last =>
      (last.indices.get? "books").map fun data => (data.index.docIds, data.maps.uidForDocId 0,
        data.maps.uidForDocId 1)) = some ([], some "1", some "2") := by decide +kernel
  obtain ⟨last, finished, read⟩ := Option.bind_eq_some_iff.mp evaluated
  obtain ⟨data, found, views⟩ := Option.map_eq_some_iff.mp read
  rw [Prod.mk.injEq, Prod.mk.injEq] at views
  exact ⟨last, data, finished, found, views⟩

end Sample

end Surch.Api
