import Surch.Api.Hydration
import Surch.Lib.Slicing

/-! Pages of the stored documents. `documents` passes over what is not stored and `documentsPaginated`
cuts its window before that, so that pages are slices exactly as long as no hole has a stored document
behind it. -/
namespace Surch.Api
open Surch.Lib Surch.Index

variable {Digest : Type}

namespace InMemoryIndex

variable (env : Environment Digest) (data : InMemoryIndex Digest)

def documents (index : String) : Option (List StoredDocument) :=
  data.documentsByInternalIds env index data.maps.liveDocIds

def documentsPaginated (index : String) (start size : Nat) : Option (List StoredDocument) :=
  data.documentsByInternalIds env index ((data.maps.liveDocIds.drop start).take size)

end InMemoryIndex

namespace MemoryStore

variable (env : Environment Digest) (store : MemoryStore Digest)

def documents (index : String) : Option (List StoredDocument) :=
  match store.indices.get? index with
  | some data => data.documents env index
  | none => some []

def documentsPaginated (index : String) (start size : Nat) : Option (List StoredDocument) :=
  if size = 0 then some []
  else
    match store.indices.get? index with
    | some data => data.documentsPaginated env index start size
    | none => some []

end MemoryStore

/- Wherever the index is kept, its documents are read and their pages are the slices. -/
def InMemoryIndex.PagesSlice (env : Environment Digest) (data : InMemoryIndex Digest) : Prop :=
  ∀ (store : MemoryStore Digest) (index : String), store.indices.get? index = some data →
    ∃ all, store.documents env index = some all ∧
      Slicing.Paged (store.documentsPaginated env index) all

section Reading

variable {zstd : Zstd} {store next : SourceStore}

/- A store keeps the document of a blob, or keeps it in a frame of its own, of any length that the
decoder reaches. -/
def SourceStore.Stores (zstd : Zstd) (store : SourceStore) (blob : SourceBlob) (bytes : List UInt8) :
    Prop :=
  store.Keeps zstd blob bytes ∨ ∃ offset, bytes.length < 2 ^ 31 ∧
    blob = .onDisk offset (zstd.compress bytes).length sourceCodecZstd ∧
    store.segment.Holds offset (zstd.compress bytes)

theorem SourceStore.Stores.grows {blob : SourceBlob} {bytes : List UInt8}
    (stores : store.Stores zstd blob bytes) (grows : store.Grows zstd next) :
    next.Stores zstd blob bytes := by
  rcases stores with keeps | ⟨offset, short, shape, holds⟩
  · exact .inl (keeps.grows grows)
  · exact .inr ⟨offset, short, shape, grows.segment _ _ holds⟩

theorem SourceStore.Stores.read {Digest : Type} {env : Environment Digest}
    (lossless : env.zstd.Lossless) {blob : SourceBlob} {bytes : List UInt8}
    (stores : store.Stores env.zstd blob bytes) :
    InMemoryIndex.parseSourceBlob env store blob = env.serde.decode bytes := by
  rcases stores with keeps | ⟨offset, short, rfl, holds⟩
  · cases blob with
    | onDisk offset length codec =>
      have nothing : store.Caches env.zstd none := by
        intro blockId raw cached
        cases cached
      obtain ⟨cache, read, _⟩ := readOnDiskBytes_of_keeps lossless nothing keeps
      simp only [InMemoryIndex.parseSourceBlob, read, Option.bind_eq_bind, Option.bind_some]
    | compressed given => cases keeps
  · have decoded : env.zstd.decode (env.zstd.compress bytes) = some bytes :=
      Zstd.decodeFrom_compress lossless (Nat.le_max_right _ _) short
    simp only [InMemoryIndex.parseSourceBlob, readOnDiskBytes,
      if_neg (by decide : ¬ sourceCodecZstd = sourceCodecRaw), if_true, holds.read,
      Option.bind_eq_bind, Option.bind_some, decoded, Option.pure_def]

theorem storeSourceBytes_stores (lossless : zstd.Lossless) (sound : store.Sound zstd)
    {serialized : List UInt8} {mode : SourceWriteMode} (decodable : serialized.length < 2 ^ 31)
    (short : storedLength zstd serialized mode < 2 ^ 22)
    (room : mode = .zstdBlock → store.HasRoom) {blob : SourceBlob}
    (stored : storeSourceBytes zstd store serialized mode = some (blob, next)) :
    store.Grows zstd next ∧ next.Stores zstd blob serialized := by
  cases mode with
  | zstdPerDoc =>
    have narrowed : (zstd.compress serialized).length % 2 ^ 32 = (zstd.compress serialized).length :=
      Nat.mod_eq_of_lt (by simp only [storedLength] at short; omega)
    simp only [storeSourceBytes, SourceSegment.append, narrowed, Option.some.injEq,
      Prod.mk.injEq] at stored
    obtain ⟨rfl, rfl⟩ := stored
    exact ⟨grows_append zstd store (zstd.compress serialized),
      .inr ⟨store.segment.buf.length, decodable, rfl, SourceSegment.Holds.appended _ _⟩⟩
  | raw =>
    obtain ⟨blob', next', stored', grows, _, keeps⟩ :=
      @storeSourceBytes_spec _ _ lossless sound _ .raw short room
    rw [stored] at stored'
    cases stored'
    exact ⟨grows, .inl keeps⟩
  | zstdBlock =>
    obtain ⟨blob', next', stored', grows, _, keeps⟩ :=
      @storeSourceBytes_spec _ _ lossless sound _ .zstdBlock short room
    rw [stored] at stored'
    cases stored'
    exact ⟨grows, .inl keeps⟩

end Reading

section Steps

variable {zstd : Zstd} {maps next : IdMaps}

def IdMaps.Reads (zstd : Zstd) (good : List UInt8 → Prop) (maps : IdMaps) : Prop :=
  ∀ docId blob, maps.blobForDocId docId = some blob →
    ∃ bytes, good bytes ∧ maps.sourceStore.Stores zstd blob bytes

/- Among the numbers that are not tombstoned, the unused ones come last. -/
def IdMaps.HolesLast (maps : IdMaps) : Prop := Slicing.HolesLast maps.uidForDocId maps.liveDocIds

def IdMaps.TombstonesLast (maps : IdMaps) : Prop :=
  ∀ gone ∈ maps.deletedSinceDense, ∀ docId ∈ maps.liveDocIds, gone < docId →
    maps.uidForDocId docId = none

/- The actions that leave no hole in front of a document: a new document is put in only when there is
no hole, a document that was not folded yet is deleted only as the last one, and a densify turns
tombstones into holes only behind all documents. -/
def IdMapAction.KeepsHolesLast (maps : IdMaps) : IdMapAction → Prop
  | .upsert id _ _ =>
    maps.hasDocument id = true ∨ ∀ docId ∈ maps.liveDocIds, (maps.uidForDocId docId).isSome = true
  | .delete id =>
    ∀ docId ∈ maps.resolveUid id, docId < maps.dense.docCount ∨
      ∀ other ∈ maps.liveDocIds, docId < other → maps.uidForDocId other = none
  | .densify => maps.TombstonesLast
  | .maybeDensifyByBudget budget =>
    ∀ limit ∈ budget, limit ≤ maps.nextDocId - maps.dense.docCount → maps.TombstonesLast

theorem Tracked.inside (tracked : Tracked zstd maps) {docId : Nat}
    (named : (maps.uidForDocId docId).isSome = true) : docId < maps.nextDocId := by
  obtain ⟨uid, found⟩ := Option.isSome_iff_exists.mp named
  exact tracked.sound.layered.uid_inside found

theorem not_deleted_of_uid {docId : Nat} (named : (maps.uidForDocId docId).isSome = true) :
    docId ∉ maps.deletedSinceDense := by
  intro gone
  rw [IdMaps.uidForDocId, if_pos gone] at named
  cases named

theorem IdMaps.mem_liveDocIds (docId : Nat) : docId ∈ maps.liveDocIds ↔
    docId < maps.nextDocId ∧ docId ∉ maps.deletedSinceDense := by
  simp [IdMaps.liveDocIds]

theorem Tracked.live (tracked : Tracked zstd maps) {docId : Nat}
    (named : (maps.uidForDocId docId).isSome = true) : docId ∈ maps.liveDocIds :=
  (IdMaps.mem_liveDocIds docId).mpr ⟨tracked.inside named, not_deleted_of_uid named⟩

theorem Tracked.holesLast_iff (tracked : Tracked zstd maps) :
    maps.HolesLast ↔ ∀ x y, x < y → (maps.uidForDocId y).isSome = true →
      x ∈ maps.deletedSinceDense ∨ (maps.uidForDocId x).isSome = true := by
  have ascending : maps.liveDocIds.Pairwise (· < ·) := List.pairwise_lt_range.filter _
  rw [IdMaps.HolesLast, Slicing.HolesLast]
  constructor
  · intro last x y less named
    by_contra neither
    rw [not_or] at neither
    have at_x := (IdMaps.mem_liveDocIds x).mpr ⟨less.trans (tracked.inside named), neither.1⟩
    have at_y := tracked.live named
    obtain ⟨i, i_inside, rfl⟩ := List.getElem_of_mem at_x
    obtain ⟨j, j_inside, rfl⟩ := List.getElem_of_mem at_y
    have before : i < j := by
      by_contra late
      rcases Nat.lt_or_eq_of_le (Nat.not_lt.mp late) with above | same
      · exact absurd (List.pairwise_iff_getElem.mp ascending j i j_inside i_inside above) (by omega)
      · subst same
        exact absurd less (lt_irrefl _)
    exact neither.2 (List.pairwise_iff_getElem.mp last i j i_inside j_inside before named)
  · intro last
    refine ascending.imp_of_mem ?_
    intro x y at_x _ less named
    exact (last x y less named).resolve_left ((IdMaps.mem_liveDocIds x).mp at_x).2

theorem upsert_deleted {mode : SourceWriteMode} {id : String} {serialized : List UInt8}
    (stored : maps.upsertDocumentDeferred zstd mode id serialized = some next) :
    next.deletedSinceDense = maps.deletedSinceDense ∧
      ∃ blob, storeSourceBytes zstd maps.sourceStore serialized mode =
        some (blob, next.sourceStore) := by
  obtain ⟨⟨blob, store⟩, written, rest⟩ := Option.bind_eq_some_iff.mp stored
  dsimp only at rest
  split at rest <;> cases rest <;> exact ⟨rfl, blob, written⟩

theorem densify_deleted (folded : maps.densify zstd = some next) :
    next.deletedSinceDense = ∅ ∧ maps.sourceStore.flushPendingBlock zstd = some next.sourceStore := by
  obtain ⟨store, flushed, rest⟩ := Option.bind_eq_some_iff.mp folded
  dsimp only at rest
  split at rest
  · rename_i nothing
    cases rest
    exact ⟨nothing.2.1, flushed⟩
  · split at rest
    · obtain ⟨documents, _, rest⟩ := Option.bind_eq_some_iff.mp rest
      obtain ⟨forward, _, rest⟩ := Option.bind_eq_some_iff.mp rest
      cases rest
      exact ⟨rfl, flushed⟩
    · obtain ⟨documents, _, rest⟩ := Option.bind_eq_some_iff.mp rest
      obtain ⟨forward, _, rest⟩ := Option.bind_eq_some_iff.mp rest
      cases rest
      exact ⟨rfl, flushed⟩

theorem densify_holesLast_iff (lossless : zstd.Lossless) (tracked : Tracked zstd maps)
    (can : maps.CanDensify) (last : maps.HolesLast) (folded : maps.densify zstd = some next) :
    next.HolesLast ↔ maps.TombstonesLast := by
  have before := tracked.holesLast_iff.mp last
  obtain ⟨after, _, named⟩ := tracked.densify lossless can folded
  rw [after.holesLast_iff, (densify_deleted folded).1]
  simp only [named, Finset.notMem_empty, false_or]
  constructor
  · intro full gone tombstone docId _ above
    by_contra stays
    have here := full gone docId above (Option.isSome_iff_ne_none.mpr stays)
    exact not_deleted_of_uid here tombstone
  · intro behind x y less here
    rcases before x y less here with gone | there
    · rw [behind x gone y (tracked.live here) less] at here
      cases here
    · exact there

/-- A step puts a hole in front of a document exactly when it is not one of those that keep the holes
last. -/
theorem idMapStep_holesLast_iff (lossless : zstd.Lossless) (tracked : Tracked zstd maps)
    {action : IdMapAction} (fits : action.Fits zstd maps) (last : maps.HolesLast)
    (stepped : idMapStep zstd maps action = some next) :
    next.HolesLast ↔ action.KeepsHolesLast maps := by
  have before := tracked.holesLast_iff.mp last
  cases action with
  | upsert id serialized mode =>
    obtain ⟨after, known, fresh⟩ := tracked.upsert lossless fits stepped
    have deleted := (upsert_deleted stepped).1
    rw [after.holesLast_iff, deleted]
    cases present : maps.hasDocument id with
    | true =>
      obtain ⟨-, named⟩ := known present
      simp only [named, IdMapAction.KeepsHolesLast, present, true_or, iff_true]
      exact before
    | false =>
      obtain ⟨-, -, named⟩ := fresh present
      simp only [named, IdMapAction.KeepsHolesLast, present, Bool.false_eq_true, false_or,
        IdMaps.liveDocIds, List.mem_filter, List.mem_range, decide_eq_true_eq]
      constructor
      · rintro after docId ⟨inside, alive⟩
        rcases after docId maps.nextDocId inside (.inl rfl) with gone | same | here
        · exact absurd gone alive
        · omega
        · exact here
      · rintro full x y less (rfl | here)
        · by_cases gone : x ∈ maps.deletedSinceDense
          · exact .inl gone
          · exact .inr (.inr (full x ⟨less, gone⟩))
        · exact (before x y less here).imp_right .inr
  | delete id =>
    cases stepped
    rw [(tracked.delete id).holesLast_iff]
    cases resolved : maps.resolveUid id with
    | none =>
      simp only [IdMaps.deleteDocumentDeferred, resolved, IdMapAction.KeepsHolesLast,
        Option.not_mem_none, false_implies, implies_true, iff_true]
      exact before
    | some docId =>
      obtain ⟨_, named, _⟩ := tracked.sound.layered.deletion resolved
      have deleted : (maps.deleteDocumentDeferred id).2.deletedSinceDense =
          if docId < maps.dense.docCount then insert docId maps.deletedSinceDense
          else maps.deletedSinceDense := by
        simp only [IdMaps.deleteDocumentDeferred, resolved]
      have here : (maps.uidForDocId docId).isSome = true := by
        rw [(tracked.sound.layered.resolveUid_iff id docId).mp resolved]
        rfl
      simp only [named, deleted, IdMapAction.KeepsHolesLast, resolved, Option.mem_some_iff]
      constructor
      · rintro after _ rfl
        by_cases old : docId < maps.dense.docCount
        · exact .inl old
        · refine .inr fun other _ above => ?_
          by_contra stays
          have hole := after docId other above (by
            rw [if_neg (by omega)]
            exact Option.isSome_iff_ne_none.mpr stays)
          rw [if_neg old, if_pos rfl] at hole
          rcases hole with gone | gone
          · exact not_deleted_of_uid here gone
          · cases gone
      · intro keeps x y less stays
        have apart : y ≠ docId := by
          rintro rfl
          rw [if_pos rfl] at stays
          cases stays
        rw [if_neg apart] at stays
        by_cases same : x = docId
        · subst same
          rcases keeps x rfl with old | alone
          · rw [if_pos old]
            exact .inl (Finset.mem_insert_self _ _)
          · rw [alone y (tracked.live stays) less] at stays
            cases stays
        · rw [if_neg same]
          refine (before x y less stays).imp_left fun gone => ?_
          split
          · exact Finset.mem_insert_of_mem gone
          · exact gone
  | densify => exact densify_holesLast_iff lossless tracked fits last stepped
  | maybeDensifyByBudget budget =>
    cases budget with
    | none =>
      cases stepped
      simpa [IdMapAction.KeepsHolesLast] using last
    | some limit =>
      simp only [idMapStep, IdMaps.maybeDensifyByBudget] at stepped
      split at stepped
      · rename_i small
        cases stepped
        refine iff_of_true last ?_
        rintro _ ⟨⟩ reached
        omega
      · rename_i reached
        rw [densify_holesLast_iff lossless tracked fits last stepped]
        constructor
        · rintro behind _ ⟨⟩ _
          exact behind
        · intro keeps
          exact keeps limit rfl (not_lt.mp reached)

theorem PlainMap.get?_upsert {plain : PlainMap} {id other : String} {blob found : SourceBlob}
    {docId : Nat} (entry : (plain.upsert id blob).entries.get? other = some (docId, found)) :
    found = blob ∨ plain.entries.get? other = some (docId, found) := by
  unfold PlainMap.upsert at entry
  cases known : plain.entries.get? id with
  | none =>
    simp only [known, SortedMap.get?_upsert] at entry
    split at entry
    · cases entry
      exact .inl rfl
    · exact .inr entry
  | some pair =>
    simp only [known, SortedMap.get?_upsert] at entry
    split at entry
    · cases entry
      exact .inl rfl
    · exact .inr entry

theorem IdMaps.Reads.grows {good : List UInt8 → Prop} (reads : maps.Reads zstd good)
    (grows : maps.sourceStore.Grows zstd next.sourceStore)
    (kept : ∀ docId blob, next.blobForDocId docId = some blob → maps.blobForDocId docId = some blob) :
    next.Reads zstd good := by
  intro docId blob found
  obtain ⟨bytes, fine, stores⟩ := reads docId blob (kept docId blob found)
  exact ⟨bytes, fine, stores.grows grows⟩

theorem densify_reads (lossless : zstd.Lossless) {good : List UInt8 → Prop}
    (tracked : Tracked zstd maps) (can : maps.CanDensify) (reads : maps.Reads zstd good)
    (folded : maps.densify zstd = some next) : next.Reads zstd good := by
  obtain ⟨next', folded', _, _, _, _, _, blobs⟩ :=
    tracked.sound.layered.densify lossless can.1 tracked.sound.store can.2
  obtain rfl : next = next' := Option.some.inj (folded.symm.trans folded')
  have short := tracked.sound.store.pending
  unfold sourceBlockTargetBytes at short
  obtain ⟨store, flushed, grows, _⟩ :=
    flushPendingBlock_spec lossless can.2 (by omega) tracked.sound.store.blocks
  rw [(densify_deleted folded).2, Option.some.injEq] at flushed
  subst flushed
  exact reads.grows grows fun docId blob found => by rwa [blobs] at found

theorem idMapStep_tracked (lossless : zstd.Lossless) (tracked : Tracked zstd maps)
    {action : IdMapAction} (fits : action.Fits zstd maps)
    (stepped : idMapStep zstd maps action = some next) : Tracked zstd next := by
  obtain ⟨plain, agrees⟩ := tracked.agrees
  obtain ⟨next', stepped', sound', agrees'⟩ := idMapStep_agrees lossless tracked.sound agrees fits
  obtain rfl : next = next' := Option.some.inj (stepped.symm.trans stepped')
  exact ⟨sound', _, agrees'⟩

theorem idMapStep_reads (lossless : zstd.Lossless) {good : List UInt8 → Prop}
    (tracked : Tracked zstd maps) {action : IdMapAction} (fits : action.Fits zstd maps)
    (stored : ∀ id serialized mode, action = .upsert id serialized mode →
      good serialized ∧ serialized.length < 2 ^ 31)
    (reads : maps.Reads zstd good) (stepped : idMapStep zstd maps action = some next) :
    next.Reads zstd good := by
  cases action with
  | upsert id serialized mode =>
    obtain ⟨fine, decodable⟩ := stored id serialized mode rfl
    obtain ⟨plain, agrees⟩ := tracked.agrees
    obtain ⟨next', stepped', _, agrees'⟩ := upsert_agrees lossless tracked.sound agrees fits
    obtain rfl : next = next' := Option.some.inj (stepped.symm.trans stepped')
    obtain ⟨blob, written⟩ := (upsert_deleted stepped).2
    obtain ⟨_, _, short, file, blocks, _⟩ := fits
    obtain ⟨grows, stores⟩ := storeSourceBytes_stores lossless tracked.sound.store decodable short
      (fun inBlocks => ⟨file, blocks inBlocks⟩) written
    rw [plainStep, written] at agrees'
    intro docId given found
    obtain ⟨other, entry⟩ := (agrees'.blob docId given).mp found
    rcases PlainMap.get?_upsert entry with rfl | old
    · exact ⟨serialized, fine, stores⟩
    · obtain ⟨bytes, good_bytes, stores⟩ := reads docId given ((agrees.blob docId given).mpr ⟨other, old⟩)
      exact ⟨bytes, good_bytes, stores.grows grows⟩
  | delete id =>
    cases stepped
    cases resolved : maps.resolveUid id with
    | none => simpa only [IdMaps.deleteDocumentDeferred, resolved] using reads
    | some docId =>
      obtain ⟨_, _, blobs⟩ := tracked.sound.layered.deletion resolved
      have store : (maps.deleteDocumentDeferred id).2.sourceStore = maps.sourceStore := by
        simp only [IdMaps.deleteDocumentDeferred, resolved]
      intro d blob found
      rw [blobs] at found
      split at found
      · cases found
      · rw [store]
        exact reads d blob found
  | densify => exact densify_reads lossless tracked fits reads stepped
  | maybeDensifyByBudget budget =>
    simp only [idMapStep, IdMaps.maybeDensifyByBudget] at stepped
    split at stepped
    · cases stepped
      exact reads
    · split at stepped
      · cases stepped
        exact reads
      · exact densify_reads lossless tracked fits reads stepped

end Steps

section Runs

variable (env : Environment Digest)

inductive DocumentAction where
  | upsert (id : String) (source : Value)
  | delete (id : String)
  | densify
  | rebuildIndex (occasion : Occasion)
  | appendToIndex (newDocIds : List Nat) (occasion : Occasion)
  | refresh (occasion : Occasion)

def documentStep (data : InMemoryIndex Digest) : DocumentAction → Option (InMemoryIndex Digest)
  | .upsert id source => data.upsertDocumentDeferred env id source
  | .delete id => some (data.deleteDocumentDeferred id).2
  | .densify => do
    let maps ← data.maps.densify env.zstd
    return { data with maps }
  | .rebuildIndex occasion => data.rebuildIndex env occasion
  | .appendToIndex newDocIds occasion => data.appendToIndex env newDocIds occasion
  | .refresh occasion => data.finalizeTermsForRefresh env occasion

def documentRun (data : InMemoryIndex Digest) : List DocumentAction → Option (InMemoryIndex Digest)
  | [] => some data
  | action :: rest => do
    let next ← documentStep env data action
    documentRun next rest

def DocumentAction.onMaps (data : InMemoryIndex Digest) : DocumentAction → Option IdMapAction
  | .upsert id source => some (.upsert id (utf8 (env.serde.encode source)) env.sourceWriteMode)
  | .delete id => some (.delete id)
  | .densify => some .densify
  | .rebuildIndex _ => none
  | .appendToIndex newDocIds _ =>
    if newDocIds.isEmpty ∨ data.termsFinalized then none
    else some (.maybeDensifyByBudget env.densifyBudgetDocs)
  | .refresh _ => if data.termsFinalized then none else some .densify

/- The text of a source is parsed again, and short enough for the decoder. -/
def DocumentAction.SourceFits : DocumentAction → Prop
  | .upsert _ source =>
    (env.serde.decode (utf8 (env.serde.encode source))).isSome = true ∧
      (utf8 (env.serde.encode source)).length < 2 ^ 31
  | _ => True

def DocumentAction.Fits (data : InMemoryIndex Digest) (action : DocumentAction) : Prop :=
  action.SourceFits env ∧ ∀ change ∈ action.onMaps env data, change.Fits env.zstd data.maps

def DocumentAction.KeepsHolesLast (data : InMemoryIndex Digest) (action : DocumentAction) : Prop :=
  ∀ change ∈ action.onMaps env data, change.KeepsHolesLast data.maps

def DocumentRunFits (data : InMemoryIndex Digest) : List DocumentAction → Prop
  | [] => True
  | action :: rest =>
    action.Fits env data ∧ ∀ next ∈ documentStep env data action, DocumentRunFits next rest

def RunKeepsHolesLast (data : InMemoryIndex Digest) : List DocumentAction → Prop
  | [] => True
  | action :: rest =>
    ∀ next ∈ documentStep env data action,
      action.KeepsHolesLast env data ∧ RunKeepsHolesLast next rest

variable {env} {data next : InMemoryIndex Digest}

/- The id maps agree with a plain map, and every stored document can be read. -/
structure InMemoryIndex.Pageable (env : Environment Digest) (data : InMemoryIndex Digest) : Prop where
  tracked : Tracked env.zstd data.maps
  reads : data.maps.Reads env.zstd fun bytes => (env.serde.decode bytes).isSome = true

theorem documentStep_maps {action : DocumentAction}
    (stepped : documentStep env data action = some next) :
    (action.onMaps env data = none ∧ next.maps = data.maps) ∨
      ∃ change, action.onMaps env data = some change ∧
        idMapStep env.zstd data.maps change = some next.maps := by
  cases action with
  | upsert id source =>
    obtain ⟨maps, stored, rest⟩ := Option.bind_eq_some_iff.mp stepped
    cases rest
    exact .inr ⟨_, rfl, stored⟩
  | delete id =>
    cases stepped
    exact .inr ⟨_, rfl, rfl⟩
  | densify =>
    obtain ⟨maps, folded, rest⟩ := Option.bind_eq_some_iff.mp stepped
    cases rest
    exact .inr ⟨_, rfl, folded⟩
  | rebuildIndex occasion =>
    obtain ⟨documents, _, rest⟩ := Option.bind_eq_some_iff.mp stepped
    cases rest
    exact .inl ⟨rfl, rfl⟩
  | appendToIndex newDocIds occasion =>
    simp only [documentStep, InMemoryIndex.appendToIndex] at stepped
    simp only [DocumentAction.onMaps]
    split at stepped
    · rename_i nothing
      cases stepped
      exact .inl ⟨if_pos (.inl nothing), rfl⟩
    · rename_i some_new
      split at stepped
      · rename_i finalized
        obtain ⟨documents, _, rest⟩ := Option.bind_eq_some_iff.mp stepped
        cases rest
        exact .inl ⟨if_pos (.inr finalized), rfl⟩
      · rename_i open_still
        obtain ⟨documents, _, rest⟩ := Option.bind_eq_some_iff.mp stepped
        obtain ⟨index, _, rest⟩ := Option.bind_eq_some_iff.mp rest
        obtain ⟨maps, folded, rest⟩ := Option.bind_eq_some_iff.mp rest
        cases rest
        exact .inr ⟨_, if_neg (not_or.mpr ⟨some_new, open_still⟩), folded⟩
  | refresh occasion =>
    simp only [documentStep, InMemoryIndex.finalizeTermsForRefresh] at stepped
    simp only [DocumentAction.onMaps]
    split at stepped
    · rename_i finalized
      cases stepped
      exact .inl ⟨if_pos finalized, rfl⟩
    · rename_i open_still
      obtain ⟨maps, folded, rest⟩ := Option.bind_eq_some_iff.mp stepped
      obtain ⟨index, _, rest⟩ := Option.bind_eq_some_iff.mp rest
      cases rest
      exact .inr ⟨_, if_neg open_still, folded⟩

theorem new_pageable (epoch : Nat) (mapping : IndexMapping) :
    (InMemoryIndex.new epoch mapping : InMemoryIndex Digest).Pageable env := by
  refine ⟨new_tracked env.zstd epoch, ?_⟩
  intro docId blob found
  obtain ⟨id, entry⟩ := ((new_agrees env.zstd epoch).blob docId blob).mp found
  simp [PlainMap.empty] at entry

theorem documentStep_pageable (lossless : env.zstd.Lossless) (pageable : data.Pageable env)
    {action : DocumentAction} (fits : action.Fits env data)
    (stepped : documentStep env data action = some next) : next.Pageable env := by
  rcases documentStep_maps stepped with ⟨-, same⟩ | ⟨change, shape, changed⟩
  · exact ⟨same ▸ pageable.tracked, same ▸ pageable.reads⟩
  · have change_fits := fits.2 change shape
    refine ⟨idMapStep_tracked lossless pageable.tracked change_fits changed,
      idMapStep_reads lossless pageable.tracked change_fits ?_ pageable.reads changed⟩
    rintro id serialized mode rfl
    cases action with
    | upsert id' source =>
      cases shape
      exact fits.1
    | delete id' => cases shape
    | densify => cases shape
    | rebuildIndex occasion => cases shape
    | appendToIndex newDocIds occasion =>
      simp only [DocumentAction.onMaps] at shape
      split at shape <;> cases shape
    | refresh occasion =>
      simp only [DocumentAction.onMaps] at shape
      split at shape <;> cases shape

theorem documentStep_holesLast_iff (lossless : env.zstd.Lossless) (pageable : data.Pageable env)
    {action : DocumentAction} (fits : action.Fits env data) (last : data.maps.HolesLast)
    (stepped : documentStep env data action = some next) :
    next.maps.HolesLast ↔ action.KeepsHolesLast env data := by
  rw [DocumentAction.KeepsHolesLast]
  rcases documentStep_maps stepped with ⟨shape, same⟩ | ⟨change, shape, changed⟩
  · rw [shape, same]
    exact iff_of_true last fun change member => absurd member (Option.not_mem_none change)
  · rw [idMapStep_holesLast_iff lossless pageable.tracked (fits.2 change shape) last changed, shape]
    simp

theorem InMemoryIndex.Pageable.documents (pageable : data.Pageable env)
    (lossless : env.zstd.Lossless) (index : String) :
    ∃ document : Nat → Option StoredDocument,
      (∀ docIds, data.documentsByInternalIds env index docIds = some (docIds.filterMap document)) ∧
      ∀ docId, (document docId).isSome = (data.maps.uidForDocId docId).isSome := by
  have each : ∀ docId, ∃ document, data.documentByInternalId env index docId = some document ∧
      document.isSome = (data.maps.uidForDocId docId).isSome := by
    intro docId
    have both := pageable.tracked.sound.layered.blob_isSome docId
    rw [InMemoryIndex.documentByInternalId]
    cases named : data.maps.uidForDocId docId with
    | none => exact ⟨none, rfl, rfl⟩
    | some id =>
      rw [named] at both
      obtain ⟨blob, stored⟩ := Option.isSome_iff_exists.mp both
      obtain ⟨bytes, decodes, stores⟩ := pageable.reads docId blob stored
      obtain ⟨source, decoded⟩ := Option.isSome_iff_exists.mp decodes
      refine ⟨some ⟨docId, index, id, source⟩, ?_, rfl⟩
      simp only [stored, stores.read lossless, decoded, Option.bind_eq_bind, Option.bind_some,
        Option.pure_def]
  choose document read present using each
  refine ⟨document, ?_, present⟩
  intro docIds
  have all : docIds.mapM (data.documentByInternalId env index) = some (docIds.map document) := by
    rw [funext read]
    exact List.mapM_pure
  rw [InMemoryIndex.documentsByInternalIds, all, Option.map_some, List.reduceOption,
    List.filterMap_map]
  rfl

/-- In a state that can be read, paging is slicing exactly when the holes are last. -/
theorem pagesSlice_iff (pageable : data.Pageable env) (lossless : env.zstd.Lossless) :
    data.PagesSlice env ↔ data.maps.HolesLast := by
  constructor
  · intro pages
    obtain ⟨document, read, present⟩ := pageable.documents lossless "index"
    have kept : ((MemoryStore.empty : MemoryStore Digest).put "index" data).indices.get? "index" =
        some data := by
      simp [MemoryStore.put, SortedMap.get?_upsert]
    obtain ⟨all, whole, paged⟩ := pages _ "index" kept
    rw [MemoryStore.documents, kept] at whole
    simp only [InMemoryIndex.documents, read, Option.some.injEq] at whole
    subst whole
    have last : Slicing.HolesLast document data.maps.liveDocIds := by
      apply Slicing.holesLast_of_slices
      intro start size
      have page := paged.slices start size
      rw [MemoryStore.documentsPaginated, kept] at page
      split at page
      · rename_i nothing
        rw [nothing]
        simp [Slicing.slice]
      · simp only [InMemoryIndex.documentsPaginated, read, Option.some.injEq] at page
        exact page
    simpa only [IdMaps.HolesLast, Slicing.HolesLast, present] using last
  · intro last store index kept
    obtain ⟨document, read, present⟩ := pageable.documents lossless index
    have holes : Slicing.HolesLast document data.maps.liveDocIds := by
      simpa only [IdMaps.HolesLast, Slicing.HolesLast, present] using last
    refine ⟨data.maps.liveDocIds.filterMap document, ?_, Slicing.paged_of_slices ?_⟩
    · rw [MemoryStore.documents, kept]
      exact read _
    · intro start size
      rw [MemoryStore.documentsPaginated, kept]
      split
      · rename_i nothing
        rw [nothing]
        simp [Slicing.slice]
      · simp only [InMemoryIndex.documentsPaginated, read]
        rw [← Slicing.filterMap_slice holes]
        rfl

/-- From a state with its holes last: every state reached pages by slices exactly when every step keeps
the holes last. -/
theorem documentRun_pages_iff (lossless : env.zstd.Lossless) (actions : List DocumentAction)
    (pageable : data.Pageable env) (last : data.maps.HolesLast)
    (fits : DocumentRunFits env data actions) :
    (∀ first second reached, actions = first ++ second → documentRun env data first = some reached →
      reached.PagesSlice env) ↔ RunKeepsHolesLast env data actions := by
  induction actions generalizing data with
  | nil =>
    refine iff_of_true ?_ trivial
    intro first second reached split finished
    obtain ⟨rfl, rfl⟩ := List.append_eq_nil_iff.mp split.symm
    cases finished
    exact (pagesSlice_iff pageable lossless).mpr last
  | cons action rest ih =>
    constructor
    · intro pages next stepped
      have pageable' := documentStep_pageable lossless pageable fits.1 stepped
      have one : documentRun env data [action] = some next := by
        rw [documentRun, stepped]
        rfl
      have last' : next.maps.HolesLast :=
        (pagesSlice_iff pageable' lossless).mp (pages [action] rest next rfl one)
      refine ⟨(documentStep_holesLast_iff lossless pageable fits.1 last stepped).mp last', ?_⟩
      refine (ih pageable' last' (fits.2 next stepped)).mp ?_
      rintro first second reached rfl finished
      refine pages (action :: first) second reached rfl ?_
      rw [documentRun, stepped]
      exact finished
    · intro keeps first second reached split finished
      cases first with
      | nil =>
        cases finished
        exact (pagesSlice_iff pageable lossless).mpr last
      | cons head first =>
        rw [List.cons_append, List.cons.injEq] at split
        obtain ⟨rfl, rfl⟩ := split
        obtain ⟨next, stepped, later⟩ := Option.bind_eq_some_iff.mp finished
        obtain ⟨here, onward⟩ := keeps next stepped
        have last' := (documentStep_holesLast_iff lossless pageable fits.1 last stepped).mpr here
        exact (ih (documentStep_pageable lossless pageable fits.1 stepped) last'
          (fits.2 next stepped)).mpr onward first second reached rfl later

/-- In a run within the limits paging is slicing in every state that is reached exactly when no step
leaves a hole in front of a document. -/
theorem documents_paginated_slices_iff (env : Environment Digest) (lossless : env.zstd.Lossless)
    (epoch : Nat) (mapping : IndexMapping) (actions : List DocumentAction)
    (fits : DocumentRunFits env (.new epoch mapping) actions) :
    (∀ first second reached, actions = first ++ second →
      documentRun env (.new epoch mapping) first = some reached → reached.PagesSlice env) ↔
      RunKeepsHolesLast env (.new epoch mapping) actions :=
  documentRun_pages_iff lossless actions (new_pageable epoch mapping) .nil fits

end Runs

section Sample

instance (maps : IdMaps) : Decidable maps.TombstonesLast :=
  inferInstanceAs (Decidable (∀ gone ∈ maps.deletedSinceDense, ∀ docId ∈ maps.liveDocIds,
    gone < docId → maps.uidForDocId docId = none))

instance (maps : IdMaps) : (action : IdMapAction) → Decidable (action.KeepsHolesLast maps)
  | .upsert id _ _ => inferInstanceAs (Decidable (maps.hasDocument id = true ∨
      ∀ docId ∈ maps.liveDocIds, (maps.uidForDocId docId).isSome = true))
  | .delete id => inferInstanceAs (Decidable (∀ docId ∈ maps.resolveUid id,
      docId < maps.dense.docCount ∨
        ∀ other ∈ maps.liveDocIds, docId < other → maps.uidForDocId other = none))
  | .densify => inferInstanceAs (Decidable maps.TombstonesLast)
  | .maybeDensifyByBudget budget => inferInstanceAs (Decidable (∀ limit ∈ budget,
      limit ≤ maps.nextDocId - maps.dense.docCount → maps.TombstonesLast))

variable (env : Environment Digest)

instance (data : InMemoryIndex Digest) (action : DocumentAction) :
    Decidable (action.Fits env data) :=
  match action with
  | .upsert _ _ => inferInstanceAs (Decidable ((_ = true ∧ _ < _) ∧ ∀ change ∈ _, _))
  | .delete _ => inferInstanceAs (Decidable (True ∧ ∀ change ∈ _, _))
  | .densify => inferInstanceAs (Decidable (True ∧ ∀ change ∈ _, _))
  | .rebuildIndex _ => inferInstanceAs (Decidable (True ∧ ∀ change ∈ _, _))
  | .appendToIndex _ _ => inferInstanceAs (Decidable (True ∧ ∀ change ∈ _, _))
  | .refresh _ => inferInstanceAs (Decidable (True ∧ ∀ change ∈ _, _))

instance documentRunFitsDecidable : (data : InMemoryIndex Digest) → (actions : List DocumentAction) →
    Decidable (DocumentRunFits env data actions)
  | _, [] => .isTrue trivial
  | data, action :: rest =>
    have : ∀ next : InMemoryIndex Digest, Decidable (DocumentRunFits env next rest) := fun next =>
      documentRunFitsDecidable next rest
    inferInstanceAs (Decidable (action.Fits env data ∧
      ∀ next ∈ documentStep env data action, DocumentRunFits env next rest))

instance runKeepsHolesLastDecidable : (data : InMemoryIndex Digest) →
    (actions : List DocumentAction) → Decidable (RunKeepsHolesLast env data actions)
  | _, [] => .isTrue trivial
  | data, action :: rest =>
    have : ∀ next : InMemoryIndex Digest, Decidable (RunKeepsHolesLast env next rest) := fun next =>
      runKeepsHolesLastDecidable next rest
    inferInstanceAs (Decidable (∀ next ∈ documentStep env data action,
      (∀ change ∈ action.onMaps env data, change.KeepsHolesLast data.maps) ∧
        RunKeepsHolesLast env next rest))

def foldedThenDeleted : List DocumentAction :=
  [.upsert "1" titledSource, .upsert "2" titledSource, .densify, .delete "1",
    .upsert "3" titledSource]

theorem documents_paginated_slices_folded :
    DocumentRunFits libraryEnvironment (.new 0 .default) foldedThenDeleted ∧
      ∃ reached, documentRun libraryEnvironment (.new 0 .default) foldedThenDeleted = some reached ∧
        reached.maps.liveDocIds = [1, 2] ∧ reached.PagesSlice libraryEnvironment := by
  have fits : DocumentRunFits libraryEnvironment (.new 0 .default) foldedThenDeleted := by
    decide +kernel
  have keeps : RunKeepsHolesLast libraryEnvironment (.new 0 .default) foldedThenDeleted := by
    decide +kernel
  have evaluated : (documentRun libraryEnvironment (.new 0 .default) foldedThenDeleted).map
      (fun reached => reached.maps.liveDocIds) = some [1, 2] := by decide +kernel
  obtain ⟨reached, finished, live⟩ := Option.map_eq_some_iff.mp evaluated
  have pages := (documents_paginated_slices_iff libraryEnvironment storedFrame_lossless 0 .default
    foldedThenDeleted fits).mpr keeps
  exact ⟨fits, reached, finished, live, pages foldedThenDeleted [] reached rfl finished⟩

def deletedBeforeRefresh : List DocumentAction :=
  [.upsert "1" titledSource, .upsert "2" titledSource, .delete "1"]

/-- There is a document, and the first page of one document is empty. -/
theorem not_documents_paginated_slices :
    DocumentRunFits libraryEnvironment (.new 0 .default) deletedBeforeRefresh ∧
      ∃ reached,
        documentRun libraryEnvironment (.new 0 .default) deletedBeforeRefresh = some reached ∧
        ¬ reached.PagesSlice libraryEnvironment := by
  have fits : DocumentRunFits libraryEnvironment (.new 0 .default) deletedBeforeRefresh := by
    decide +kernel
  have evaluated : (documentRun libraryEnvironment (.new 0 .default) deletedBeforeRefresh).map
      (fun reached =>
        (((MemoryStore.empty.put "books" reached).documents libraryEnvironment "books").map List.length,
          ((MemoryStore.empty.put "books" reached).documentsPaginated libraryEnvironment "books" 0
            1).map List.length)) = some (some 1, some 0) := by decide +kernel
  obtain ⟨reached, finished, counts⟩ := Option.map_eq_some_iff.mp evaluated
  rw [Prod.mk.injEq] at counts
  refine ⟨fits, reached, finished, ?_⟩
  intro pages
  obtain ⟨all, whole, paged⟩ := pages (MemoryStore.empty.put "books" reached) "books" (by
    simp [MemoryStore.put, SortedMap.get?_upsert])
  have first := paged.slices 0 1
  rw [whole, Option.map_some, Option.some.injEq] at counts
  rw [first, Option.map_some, Option.some.injEq, Slicing.slice, List.length_take, List.length_drop,
    counts.1] at counts
  cases counts.2

end Sample

end Surch.Api
