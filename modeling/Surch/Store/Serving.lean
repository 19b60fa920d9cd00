import Surch.Store.Opening

/-! What the calls of a segment store do to the records it serves. -/
namespace Surch.Store
open Surch.Lib

section Sessions

def recordsOf (files : SortedMap String PersistedSegment) (segment : SegmentMetadata) :
    List WalRecord :=
  ((files.get? segment.fileName).map PersistedSegment.records).getD []

theorem readAll_recordsOf {files : SortedMap String PersistedSegment}
    {segments : List SegmentMetadata} (present : ∀ segment ∈ segments, segment.fileName ∈ files.keys) :
    readAll files segments = .ok (segments.flatMap (recordsOf files)) := by
  have here : ∀ segment ∈ segments, files.get? segment.fileName =
      some ((files.get? segment.fileName).getD ⟨segment, []⟩) := by
    intro segment member
    obtain ⟨file, found⟩ := (files.mem_keys_iff _).mp (present segment member)
    simp only [found, Option.getD_some]
  rw [readAll_spec here]
  congr 1
  apply List.flatMap_congr
  intro segment member
  rw [recordsOf, here segment member]
  rfl

theorem recordsOf_congr {files files' : SortedMap String PersistedSegment}
    {segments : List SegmentMetadata}
    (same : ∀ segment ∈ segments, files'.get? segment.fileName = files.get? segment.fileName) :
    segments.flatMap (recordsOf files') = segments.flatMap (recordsOf files) := by
  apply List.flatMap_congr
  intro segment member
  rw [recordsOf, recordsOf, same segment member]

theorem recordsOf_of_get? {files : SortedMap String PersistedSegment} {segment : SegmentMetadata}
    {file : PersistedSegment} (found : files.get? segment.fileName = some file) :
    recordsOf files segment = file.records := by
  rw [recordsOf, found]
  rfl

@[simp] theorem write_get? (dir : StoreDir) (fileName : String) (file : PersistedSegment)
    (name : String) : (dir.write fileName file).segments.get? name =
      if name = fileName then some file else dir.segments.get? name :=
  dir.segments.get?_upsert _ _ _

/-- A store that serves `records`: its segments are files of their own, and the next id is free. -/
structure SegmentStore.Serves (store : SegmentStore) (dir : StoreDir) (records : List WalRecord) :
    Prop where
  named : Named store.nextSegmentId dir.segments
  present : ∀ segment ∈ store.segments, segment.fileName ∈ dir.segments.keys
  distinct : (store.segments.map SegmentMetadata.fileName).Nodup
  served : store.segments.flatMap (recordsOf dir.segments) = records

variable {store : SegmentStore} {dir : StoreDir} {records : List WalRecord}

theorem SegmentStore.Serves.allRecords (serves : store.Serves dir records) :
    store.allRecords dir = .ok records := by
  rw [SegmentStore.allRecords, readAll_recordsOf serves.present, serves.served]

theorem Named.fresh {next : Nat} {files : SortedMap String PersistedSegment}
    (named : Named next files) (small : next < 2 ^ 64) : segmentName next ∉ files.keys := by
  intro member
  obtain ⟨id, below, same⟩ := named _ member
  have := segmentName_injective small (by omega) same
  omega

theorem Named.upsert {next : Nat} {files : SortedMap String PersistedSegment}
    (named : Named next files) (f : Option PersistedSegment → PersistedSegment) :
    Named (next + 1) (files.upsert (segmentName next) f) := by
  intro name member
  rcases (files.mem_keys_upsert _ _ _).mp member with rfl | inside
  · exact ⟨next, by omega, rfl⟩
  · exact named.mono (by omega) name inside

end Sessions

section Calls

variable (store : SegmentStore) (dir : StoreDir)

def SegmentStore.issued : SegmentStore := store.nextSegmentName.2

def appendedFile (entries : List WalRecord) : PersistedSegment :=
  ⟨⟨segmentName store.nextSegmentId, entries.length⟩, entries⟩

def StoreRequest.isAppend : StoreRequest → Bool
  | .appendSegment _ _ => true
  | _ => false

def StoreRequest.isMerge : StoreRequest → Bool
  | .look => true
  | .writeMerged _ _ => true
  | _ => false

def StoreRequest.isRemoval : StoreRequest → Bool
  | .removeSource _ => true
  | _ => false

inductive Appended (faults : Bool) (entries : List WalRecord) :
    SegmentStore.Outcome (Option SegmentMetadata) → StoreDir → Prop
  | nothing (empty : entries = []) : Appended faults entries (.ok none, store) dir
  | written (filled : entries ≠ []) :
    Appended faults entries (.ok (some (appendedFile store entries).metadata),
        { store.issued with segments := store.segments ++ [(appendedFile store entries).metadata] })
      (dir.write (segmentName store.nextSegmentId) (appendedFile store entries))
  | failed (may : faults = true) (error : SegmentStoreError) :
    Appended faults entries (.error error, store.issued) dir

theorem appendEntries_keeps (faults : Bool) (entries : List WalRecord) :
    Program.Keeps StoreDir.serve faults (fun q d => q.isAppend = true ∧ d = dir)
      (Appended store dir faults entries)
      (store.appendEntries entries) dir := by
  unfold SegmentStore.appendEntries
  split
  · rename_i empty
    exact .nothing (List.isEmpty_iff.mp empty)
  · rename_i filled
    rw [List.isEmpty_iff] at filled
    constructor
    · exact ⟨rfl, rfl⟩
    · intro failed may
      cases failed with
      | true => exact .failed (may rfl) _
      | false => exact .written filled

/- What a merge leaves: nothing changed, or its file written and the sources gone. -/
inductive Merged (faults : Bool) (count : Nat) :
    SegmentStore.Outcome (Option SegmentMetadata) → StoreDir → Prop
  | nothing : Merged faults count (.ok none, store) dir
  | unread (may : faults = true) (error : SegmentStoreError) :
    Merged faults count (.error error, store) dir
  | unwritten (may : faults = true) (error : SegmentStoreError) :
    Merged faults count (.error error, store.issued) dir
  | torn (may : faults = true) (error : SegmentStoreError) (d : StoreDir) :
    Merged faults count (.error error, store.issued) d
  | merged (records : List WalRecord)
    (sources : readAll dir.segments (store.segments.take (store.toMerge count)) = .ok records) :
    Merged faults count (.ok (some (appendedFile store records).metadata),
        { store.issued with
          segments := (appendedFile store records).metadata ::
            store.segments.drop (store.toMerge count) })
      (((store.segments.take (store.toMerge count)).map SegmentMetadata.fileName).foldl
        StoreDir.remove (dir.write (segmentName store.nextSegmentId) (appendedFile store records)))

variable {store dir}

/-- The sources go one by one, in the order they are listed; those that are there can be removed. -/
theorem removeSources_keeps (faults : Bool) (names : List String) (d : StoreDir)
    (distinct : names.Nodup) (present : ∀ name ∈ names, name ∈ d.segments.keys) :
    Program.Keeps StoreDir.serve faults (fun q _ => q.isRemoval = true)
      (fun removed d' => (faults = false → removed = .ok ()) ∧
        (removed = .ok () → d' = names.foldl StoreDir.remove d))
      (SegmentStore.removeSources names) d := by
  induction names generalizing d with
  | nil => exact ⟨fun _ => rfl, fun _ => rfl⟩
  | cons name names ih =>
    obtain ⟨absent, distinct⟩ := List.nodup_cons.mp distinct
    obtain ⟨file, here⟩ := (SortedMap.mem_keys_iff _ _).mp (present name List.mem_cons_self)
    constructor
    · rfl
    · intro failed may
      cases failed with
      | true =>
        have answer : StoreDir.serve true (.removeSource name) d = (false, d) := by
          simp [StoreDir.serve]
        rw [answer]
        constructor
        · intro faultless
          rw [may rfl] at faultless
          cases faultless
        · exact nofun
      | false =>
        have answer : StoreDir.serve false (.removeSource name) d = (true, d.remove name) := by
          simp [StoreDir.serve, here]
        rw [answer]
        apply ih (d.remove name) distinct
        intro other member
        obtain ⟨file, found⟩ := (SortedMap.mem_keys_iff _ _).mp
          (present other (List.mem_cons_of_mem _ member))
        rw [SortedMap.mem_keys_iff]
        refine ⟨file, ?_⟩
        rw [StoreDir.remove, SortedMap.get?_erase, if_neg, found]
        rintro rfl
        exact absent member

/-- Up to the first removal, a merge that stops has changed nothing that is listed. -/
theorem mergeOldestSegments_keeps (faults : Bool) {records : List WalRecord}
    (serves : store.Serves dir records) (count : Nat) :
    Program.Keeps StoreDir.serve faults (fun q d => q.isRemoval = true ∨ (q.isMerge = true ∧ d = dir))
      (Merged store dir faults count) (store.mergeOldestSegments count) dir := by
  unfold SegmentStore.mergeOldestSegments
  split
  · exact .nothing
  dsimp only
  split
  · exact .nothing
  obtain ⟨taken, sources⟩ : ∃ taken,
      readAll dir.segments (store.segments.take (store.toMerge count)) = .ok taken :=
    ⟨_, readAll_recordsOf fun segment member => serves.present segment (List.mem_of_mem_take member)⟩
  rw [look, Program.request_bind]
  constructor
  · exact .inr ⟨rfl, rfl⟩
  intro failed may
  cases failed with
  | true => exact .unread (may rfl) _
  | false =>
    dsimp only [StoreDir.serve]
    rw [if_neg Bool.false_ne_true]
    dsimp only
    rw [sources]
    constructor
    · exact .inr ⟨rfl, rfl⟩
    intro failed may
    cases failed with
    | true => exact .unwritten (may rfl) _
    | false =>
      have distinct : ((store.segments.take (store.toMerge count)).map
          SegmentMetadata.fileName).Nodup :=
        serves.distinct.sublist ((List.take_sublist _ _).map _)
      have present : ∀ name ∈ (store.segments.take (store.toMerge count)).map
          SegmentMetadata.fileName, name ∈ (dir.write (segmentName store.nextSegmentId)
            (appendedFile store taken)).segments.keys := by
        intro name member
        obtain ⟨segment, inside, rfl⟩ := List.mem_map.mp member
        rw [StoreDir.write, SortedMap.mem_keys_upsert]
        exact .inr (serves.present segment (List.mem_of_mem_take inside))
      apply ((removeSources_keeps faults _ _ distinct present).crash_mono fun _ _ => .inl).bind
      rintro removed d ⟨faultless, done⟩
      cases removed with
      | error error => exact .torn (by
          cases faults with
          | true => rfl
          | false => cases faultless rfl) error d
      | ok whole =>
        cases done rfl
        exact .merged taken sources

end Calls

section Serving

variable {store : SegmentStore} {dir : StoreDir} {records : List WalRecord} {faults : Bool}

theorem issued_nextSegmentId (small : store.nextSegmentId + 1 < 2 ^ 64) :
    store.issued.nextSegmentId = store.nextSegmentId + 1 := Nat.mod_eq_of_lt small

theorem SegmentStore.Serves.append (serves : store.Serves dir records)
    (small : store.nextSegmentId + 1 < 2 ^ 64) {entries : List WalRecord}
    {outcome : SegmentStore.Outcome (Option SegmentMetadata)} {d : StoreDir}
    (appended : Appended store dir faults entries outcome d) :
    outcome.2.Serves d (records ++ if outcome.1.toOption.isSome then entries else []) := by
  have next := issued_nextSegmentId small
  cases appended with
  | nothing empty =>
    rw [empty, ite_self, List.append_nil]
    exact serves
  | failed _ error =>
    constructor
    · rw [next]
      exact serves.named.mono (by omega)
    · exact serves.present
    · exact serves.distinct
    · exact serves.served.trans (List.append_nil _).symm
  | written _ =>
    have fresh := serves.named.fresh (by omega)
    constructor
    · rw [show ({ store.issued with segments := _ } : SegmentStore).nextSegmentId =
        store.nextSegmentId + 1 from next]
      exact serves.named.upsert _
    · intro segment member
      rw [StoreDir.write, SortedMap.mem_keys_upsert]
      rcases List.mem_append.mp member with old | new
      · exact .inr (serves.present segment old)
      · rw [List.mem_singleton.mp new]
        exact .inl rfl
    · rw [List.map_append, List.nodup_append]
      refine ⟨serves.distinct, List.nodup_singleton _, ?_⟩
      rintro name old other new rfl
      obtain ⟨segment, member, rfl⟩ := List.mem_map.mp old
      rw [List.map_singleton, List.mem_singleton] at new
      have here := serves.present segment member
      rw [new] at here
      exact fresh here
    · have kept : store.segments.flatMap
          (recordsOf (dir.write (segmentName store.nextSegmentId)
            (appendedFile store entries)).segments) = records := by
        rw [← serves.served]
        apply recordsOf_congr
        intro segment member
        rw [write_get?, if_neg]
        intro same
        exact fresh (same ▸ serves.present segment member)
      have added : recordsOf (dir.write (segmentName store.nextSegmentId)
          (appendedFile store entries)).segments (appendedFile store entries).metadata = entries :=
        recordsOf_of_get? ((write_get? _ _ _ _).trans (if_pos rfl))
      rw [List.flatMap_append, kept, List.flatMap_singleton, added]
      rfl

theorem foldl_remove_get? (names : List String) (d : StoreDir) (name : String) :
    (names.foldl StoreDir.remove d).segments.get? name =
      if name ∈ names then none else d.segments.get? name := by
  induction names generalizing d with
  | nil => simp
  | cons first rest ih =>
    rw [List.foldl_cons, ih]
    simp only [StoreDir.remove, SortedMap.get?_erase, List.mem_cons]
    split <;> simp_all

theorem foldl_remove_named {bound : Nat} {d : StoreDir} (named : Named bound d.segments)
    (names : List String) : Named bound (names.foldl StoreDir.remove d).segments := by
  intro name member
  obtain ⟨file, found⟩ := (SortedMap.mem_keys_iff _ _).mp member
  rw [foldl_remove_get?] at found
  split at found
  · cases found
  · exact named name ((SortedMap.mem_keys_iff _ _).mpr ⟨file, found⟩)

theorem SegmentStore.Serves.merge (serves : store.Serves dir records)
    (small : store.nextSegmentId + 1 < 2 ^ 64) {count : Nat} {result : Option SegmentMetadata}
    {after : SegmentStore} {d : StoreDir} (merged : Merged store dir faults count (.ok result, after) d) :
    after.Serves d records := by
  have next := issued_nextSegmentId small
  have fresh := serves.named.fresh (by omega)
  cases merged with
  | nothing => exact serves
  | merged taken sources =>
    generalize store.toMerge count = toMerge at sources ⊢
    have split : store.segments.take toMerge ++ store.segments.drop toMerge = store.segments :=
      List.take_append_drop _ _
    have present := serves.present
    have distinct := serves.distinct
    rw [← split] at present distinct
    rw [List.map_append, List.nodup_append] at distinct
    have sources_read : taken = (store.segments.take toMerge).flatMap (recordsOf dir.segments) := by
      rw [readAll_recordsOf fun segment member => present segment (List.mem_append_left _ member)]
        at sources
      exact (Except.ok.inj sources).symm
    have old_name : ∀ segment ∈ store.segments.take toMerge ++ store.segments.drop toMerge,
        segment.fileName ≠ segmentName store.nextSegmentId := by
      intro segment member same
      exact fresh (same ▸ present segment member)
    have new_found : (((store.segments.take toMerge).map SegmentMetadata.fileName).foldl
        StoreDir.remove (dir.write (segmentName store.nextSegmentId)
          (appendedFile store taken))).segments.get? (segmentName store.nextSegmentId) =
        some (appendedFile store taken) := by
      rw [foldl_remove_get?, if_neg]
      · rw [write_get?, if_pos rfl]
      · intro member
        obtain ⟨segment, inside, same⟩ := List.mem_map.mp member
        exact old_name segment (List.mem_append_left _ inside) same
    have kept_found : ∀ segment ∈ store.segments.drop toMerge,
        (((store.segments.take toMerge).map SegmentMetadata.fileName).foldl StoreDir.remove
          (dir.write (segmentName store.nextSegmentId) (appendedFile store taken))).segments.get?
            segment.fileName = dir.segments.get? segment.fileName := by
      intro segment member
      rw [foldl_remove_get?, if_neg]
      · rw [write_get?, if_neg (old_name segment (List.mem_append_right _ member))]
      · intro source
        exact distinct.2.2 _ source _ (List.mem_map_of_mem member) rfl
    constructor
    · rw [show ({ store.issued with segments := _ } : SegmentStore).nextSegmentId =
        store.nextSegmentId + 1 from next]
      exact foldl_remove_named (serves.named.upsert _) _
    · intro segment member
      rw [SortedMap.mem_keys_iff]
      rcases List.mem_cons.mp member with rfl | kept
      · exact ⟨_, new_found⟩
      · obtain ⟨file, found⟩ := (SortedMap.mem_keys_iff _ _).mp
          (present segment (List.mem_append_right _ kept))
        exact ⟨file, (kept_found segment kept).trans found⟩
    · rw [List.map_cons, List.nodup_cons]
      constructor
      · intro member
        obtain ⟨segment, inside, same⟩ := List.mem_map.mp member
        exact old_name segment (List.mem_append_right _ inside) same
      · exact distinct.2.1
    · rw [List.flatMap_cons, recordsOf_congr kept_found, ← serves.served]
      have first : recordsOf (((store.segments.take toMerge).map SegmentMetadata.fileName).foldl
          StoreDir.remove (dir.write (segmentName store.nextSegmentId)
            (appendedFile store taken))).segments (appendedFile store taken).metadata =
          (appendedFile store taken).records := recordsOf_of_get? new_found
      rw [first, appendedFile, sources_read, ← List.flatMap_append, split]

end Serving

section Directory

/-- A store that lists all files of the directory, in their order. -/
structure SegmentStore.Filed (store : SegmentStore) (dir : StoreDir) (records : List WalRecord) :
    Prop where
  named : Named store.nextSegmentId dir.segments
  all : store.segments = listed dir.segments
  held : fileRecords dir.segments = records

variable {store : SegmentStore} {dir : StoreDir} {records : List WalRecord} {faults : Bool}

theorem SegmentStore.Filed.serves (filed : store.Filed dir records) : store.Serves dir records := by
  have present : ∀ segment ∈ store.segments, segment.fileName ∈ dir.segments.keys := by
    intro segment member
    rw [← listed_names, ← filed.all]
    exact List.mem_map_of_mem member
  constructor
  · exact filed.named
  · exact present
  · rw [filed.all, listed_names]
    exact dir.segments.keys_nodup
  · have read := readAll_listed dir.segments
    rw [← filed.all, readAll_recordsOf present, filed.held] at read
    exact Except.ok.inj read

theorem SegmentStore.Filed.append (filed : store.Filed dir records)
    (small : store.nextSegmentId < 10 ^ 12) {entries : List WalRecord}
    {outcome : SegmentStore.Outcome (Option SegmentMetadata)} {d : StoreDir}
    (appended : Appended store dir faults entries outcome d) :
    outcome.2.Filed d (records ++ if outcome.1.toOption.isSome then entries else []) := by
  have serves := filed.serves.append (by omega) appended
  cases appended with
  | nothing empty =>
    rw [empty, ite_self, List.append_nil]
    exact filed
  | failed _ error => exact ⟨serves.named, filed.all, filed.held.trans (List.append_nil _).symm⟩
  | written _ =>
    have last : (dir.write (segmentName store.nextSegmentId)
        (appendedFile store entries)).segments.entries = dir.segments.entries ++
          [(segmentName store.nextSegmentId, appendedFile store entries)] := by
      apply SortedMap.upsert_last
      intro name member
      obtain ⟨id, below, rfl⟩ := filed.named name member
      exact segmentName_lt below small
    constructor
    · exact serves.named
    · rw [listed, last, List.map_append, filed.all]
      rfl
    · rw [fileRecords, last, List.flatMap_append, List.flatMap_singleton]
      exact congrArg (· ++ entries) filed.held

end Directory

end Surch.Store
