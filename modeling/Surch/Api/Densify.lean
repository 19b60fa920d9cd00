import Surch.Api.Overlay

/-! Folding the layers of the id maps into a new snapshot changes nothing that is read, by the full
scan as by the append of the new documents. -/
namespace Surch.Api
open Surch.Lib Surch.Index

section Densify

variable {maps : IdMaps}

theorem mapM_some {α β : Type} {f : α → Option β} {P : α → β → Prop} (items : List α)
    (each : ∀ x ∈ items, ∃ y, f x = some y ∧ P x y) :
    ∃ results, items.mapM f = some results ∧ List.Forall₂ P items results := by
  induction items with
  | nil => exact ⟨[], rfl, .nil⟩
  | cons x rest ih =>
    obtain ⟨y, here, fits⟩ := each x List.mem_cons_self
    obtain ⟨results, later, all⟩ := ih fun other member => each other (List.mem_cons_of_mem _ member)
    refine ⟨y :: results, ?_, .cons fits all⟩
    rw [List.mapM_cons, here, Option.bind_eq_bind, Option.bind_some, later]
    rfl

def slotBlob (slot : Nat) : Option SourceBlob :=
  (unpackDocumentSlot slot).map fun fields => .onDisk fields.1 fields.2.1 fields.2.2

theorem DenseIdMaps.blob_eq (dense : DenseIdMaps) (docId : Nat) :
    dense.blob docId = (dense.documents[docId]?).bind slotBlob := by
  unfold DenseIdMaps.blob slotBlob
  cases dense.documents[docId]? with
  | none => rfl
  | some slot =>
    simp only [Option.bind_eq_bind, Option.bind_some]
    cases unpackDocumentSlot slot <;> rfl

/-- Packing what the layers hold for a document, or a hole, gives a slot that reads the same. -/
theorem exists_slot (layered : Layered maps) (docId : Nat) :
    ∃ slot, packSlot (maps.blobForDocId docId) = some slot ∧
      slotBlob slot = maps.blobForDocId docId := by
  cases found : maps.blobForDocId docId with
  | some blob => exact packSourceBlob_of_packable (layered.blob_packable found)
  | none => exact ⟨0, rfl, rfl⟩

theorem forall₂_slots {docIds slots : List Nat} {blobs : Nat → Option SourceBlob}
    (all : List.Forall₂ (fun docId slot => slotBlob slot = blobs docId) docIds slots) (i : Nat) :
    (slots[i]?).bind slotBlob = (docIds[i]?).bind blobs := by
  induction all generalizing i with
  | nil => rfl
  | cons here _ ih =>
    cases i with
    | zero => exact here
    | succ i =>
      rw [List.getElem?_cons_succ, List.getElem?_cons_succ]
      exact ih i

theorem liveSlot_eq (maps : IdMaps) (docId : Nat) :
    maps.liveSlot docId = (maps.blobForDocId docId).bind fun blob =>
      (maps.uidForDocId docId).map fun uid => (blob, uid) := by
  unfold IdMaps.liveSlot IdMaps.blobForDocId IdMaps.uidForDocId
  split
  · rfl
  · simp only [Option.bind_eq_bind]
    congr 1
    funext blob
    cases (maps.reverseDirty.get? docId).or (maps.dense.uid docId) <;> rfl

namespace Layered

theorem liveSlot_blob (layered : Layered maps) (docId : Nat) :
    (maps.liveSlot docId).map Prod.fst = maps.blobForDocId docId := by
  have both := layered.blob_isSome docId
  rw [liveSlot_eq]
  cases blob : maps.blobForDocId docId with
  | none => rfl
  | some given =>
    rw [blob] at both
    obtain ⟨uid, named⟩ := Option.isSome_iff_exists.mp both.symm
    rw [named]
    rfl

theorem liveSlot_uid (layered : Layered maps) (docId : Nat) :
    (maps.liveSlot docId).map Prod.snd = maps.uidForDocId docId := by
  have both := layered.blob_isSome docId
  rw [liveSlot_eq]
  cases uid : maps.uidForDocId docId with
  | none => cases maps.blobForDocId docId <;> rfl
  | some given =>
    rw [uid] at both
    obtain ⟨blob, stored⟩ := Option.isSome_iff_exists.mp both
    rw [stored]
    rfl

theorem uid_inj (layered : Layered maps) {first second : Nat} {uid : String}
    (left : maps.uidForDocId first = some uid) (right : maps.uidForDocId second = some uid) :
    first = second := by
  rw [← layered.resolveUid_iff] at left right
  rw [left] at right
  exact Option.some.inj right

theorem blob_outside (layered : Layered maps) {docId : Nat} (outside : maps.nextDocId ≤ docId) :
    maps.blobForDocId docId = none := by
  have both := layered.blob_isSome docId
  have unnamed : maps.uidForDocId docId = none := by
    cases found : maps.uidForDocId docId with
    | none => rfl
    | some uid =>
      have := layered.uid_inside found
      omega
  rw [unnamed] at both
  simpa using both

theorem densifyFull (layered : Layered maps) (small : maps.liveUidBytes < 2 ^ 32) :
    ∃ next, maps.densifyFull = some next ∧ Layered next ∧ next.sourceStore = maps.sourceStore ∧
      next.liveCount = maps.liveCount ∧ next.nextDocId = maps.nextDocId ∧
      (∀ docId, next.uidForDocId docId = maps.uidForDocId docId) ∧
      (∀ docId, next.blobForDocId docId = maps.blobForDocId docId) := by
  obtain ⟨documents, packed, all⟩ := mapM_some
    (f := fun docId => packSlot ((maps.liveSlot docId).map Prod.fst))
    (P := fun docId slot => slotBlob slot = maps.blobForDocId docId) (List.range maps.nextDocId) (by
      intro docId _
      rw [layered.liveSlot_blob]
      exact exists_slot layered docId)
  have live : (List.range maps.nextDocId).filterMap (fun docId =>
      (maps.liveSlot docId).map fun slot => (docId, slot.2)) =
      (List.range maps.nextDocId).filterMap fun docId =>
        (maps.uidForDocId docId).map fun uid => (docId, uid) := by
    apply List.filterMap_congr
    intro docId _
    rw [← layered.liveSlot_uid]
    cases maps.liveSlot docId <;> rfl
  have total : ((List.range maps.nextDocId).map (rowOf maps.uidForDocId)).flatten.length < 2 ^ 32 := by
    rw [flatten_rowOf_length]
    exact small
  have reverse := packReverse_eq maps.uidForDocId (List.range maps.nextDocId) List.nodup_range []
  rw [List.nil_append, rowStarts_mod total] at reverse
  set liveUids := (List.range maps.nextDocId).filterMap fun docId =>
    (maps.uidForDocId docId).map fun uid => (docId, uid) with liveUids_eq
  have mem_live : ∀ uid docId, (uid, docId) ∈ liveUids.map Prod.swap ↔
      maps.uidForDocId docId = some uid := by
    intro uid docId
    simp only [liveUids_eq, List.mem_map, List.mem_filterMap, Option.map_eq_some_iff, List.mem_range]
    constructor
    · rintro ⟨_, ⟨d, _, named, found, rfl⟩, same⟩
      cases same
      exact found
    · intro found
      exact ⟨(docId, uid), ⟨docId, layered.uid_inside found, uid, found, rfl⟩, rfl⟩
  have distinct : ((liveUids.map Prod.swap).map Prod.fst).Nodup := by
    have names : (liveUids.map Prod.swap).map Prod.fst =
        (List.range maps.nextDocId).filterMap maps.uidForDocId := by
      rw [liveUids_eq, List.map_map, List.map_filterMap]
      apply List.filterMap_congr
      intro docId _
      cases maps.uidForDocId docId <;> rfl
    rw [names]
    exact List.Nodup.filterMap (fun _ _ _ left right => layered.uid_inj left right) List.nodup_range
  obtain ⟨forward, built, indexed⟩ : ∃ forward, buildForward liveUids = some forward ∧
      ∀ key docId, (forward.getD .empty).get? key = some docId ↔
        ∃ uid, key = utf8 uid ∧ maps.uidForDocId docId = some uid := by
    by_cases none_live : liveUids = []
    · refine ⟨none, by rw [none_live]; rfl, ?_⟩
      intro key docId
      simp only [← mem_live, none_live]
      simp
    · have ascending := sortByUid_ascending distinct
      refine ⟨some ⟨_, ascending⟩, ?_, ?_⟩
      · rw [buildForward, if_neg (by simpa using none_live), fstBuild_of_ascending ascending]
        rfl
      · intro key docId
        rw [Option.getD_some, SortedMap.get?_eq_some_iff, mem_sortByUid]
        simp only [mem_live]
  have folded : maps.densifyFull = some (maps.snapshot
      { forward
        reverseUids := ((List.range maps.nextDocId).map (rowOf maps.uidForDocId)).flatten
        reverseOffsets := rowStarts ((List.range maps.nextDocId).map (rowOf maps.uidForDocId))
        documents }) := by
    have start : (([], [0]) : List UInt8 × List Nat) =
        (([] : List (List UInt8)).flatten, (rowStarts ([] : List (List UInt8))).map (· % 2 ^ 32)) := rfl
    unfold IdMaps.densifyFull
    simp only [packed, live, Option.bind_eq_bind, Option.bind_some, start, reverse, built]
    rfl
  obtain ⟨after, uids, blobs⟩ := @Layered.snapshot maps layered
      { forward
        reverseUids := ((List.range maps.nextDocId).map (rowOf maps.uidForDocId)).flatten
        reverseOffsets := rowStarts ((List.range maps.nextDocId).map (rowOf maps.uidForDocId))
        documents }
    ⟨rfl, .inl rfl, by rw [List.length_map]; exact all.length_eq.symm, by
      rw [List.length_map, List.length_range]
      exact layered.bounded⟩ indexed (by
      intro docId
      rw [DenseIdMaps.blob_eq, forall₂_slots all]
      by_cases inside : docId < maps.nextDocId
      · rw [List.getElem?_range inside]
        rfl
      · rw [List.getElem?_eq_none (by rw [List.length_range]; omega),
          layered.blob_outside (not_lt.mp inside)]
        rfl)
  exact ⟨_, folded, after, rfl, rfl, rfl, uids, blobs⟩

/-- Without tombstones and updates of old documents, the old part of the snapshot reads as it did. -/
theorem dense_view (layered : Layered maps) (none_gone : maps.deletedSinceDense = ∅)
    (untouched : ∀ docId blob, maps.documentsDirty.get? docId = some blob →
      maps.dense.docCount ≤ docId) {docId : Nat} (old : docId < maps.dense.docCount) :
    maps.uidForDocId docId = maps.dense.uid docId ∧
      maps.blobForDocId docId = maps.dense.blob docId := by
  have clean : maps.documentsDirty.get? docId = none := by
    cases found : maps.documentsDirty.get? docId with
    | none => rfl
    | some blob =>
      have := untouched docId blob found
      omega
  simp [IdMaps.uidForDocId, IdMaps.blobForDocId, none_gone, layered.reverseDirty_dense old, clean]

theorem fresh_view (layered : Layered maps) (none_gone : maps.deletedSinceDense = ∅) {docId : Nat}
    (fresh : maps.dense.docCount ≤ docId) :
    maps.uidForDocId docId = maps.reverseDirty.get? docId ∧
      maps.blobForDocId docId = maps.documentsDirty.get? docId := by
  have unnamed : maps.dense.uid docId = none := by
    cases found : maps.dense.uid docId with
    | none => rfl
    | some uid =>
      have := layered.dense.inside found
      omega
  have stored := layered.dense.stored docId
  rw [unnamed] at stored
  have missing : maps.dense.blob docId = none := by simpa using stored
  simp [IdMaps.uidForDocId, IdMaps.blobForDocId, none_gone, unnamed, missing]

theorem range_split {n m : Nat} (below : n ≤ m) : List.range m = List.range n ++ List.range' n (m - n) := by
  have joined := List.range'_append_1 (s := 0) (m := n) (n := m - n)
  rw [Nat.zero_add, Nat.add_sub_cancel' below] at joined
  rw [List.range_eq_range', List.range_eq_range', joined]

theorem densifyAppendOnly (layered : Layered maps) (small : maps.liveUidBytes < 2 ^ 32)
    (none_gone : maps.deletedSinceDense = ∅)
    (untouched : ∀ docId blob, maps.documentsDirty.get? docId = some blob →
      maps.dense.docCount ≤ docId) :
    ∃ next, maps.densifyAppendOnly maps.dense.docCount = some next ∧ Layered next ∧
      next.sourceStore = maps.sourceStore ∧ next.liveCount = maps.liveCount ∧
      next.nextDocId = maps.nextDocId ∧
      (∀ docId, next.uidForDocId docId = maps.uidForDocId docId) ∧
      (∀ docId, next.blobForDocId docId = maps.blobForDocId docId) := by
  set fresh := List.range' maps.dense.docCount (maps.nextDocId - maps.dense.docCount) with fresh_eq
  have mem_fresh : ∀ docId, docId ∈ fresh ↔ maps.dense.docCount ≤ docId ∧ docId < maps.nextDocId := by
    intro docId
    have := layered.counted
    rw [fresh_eq, List.mem_range'_1]
    omega
  obtain ⟨documents, packed, all⟩ := mapM_some
    (f := fun docId => packSlot (maps.documentsDirty.get? docId))
    (P := fun docId slot => slotBlob slot = maps.blobForDocId docId) fresh (by
      intro docId member
      rw [← (layered.fresh_view none_gone ((mem_fresh docId).mp member).1).2]
      exact exists_slot layered docId)
  have rows : (List.range maps.dense.docCount).map (rowOf maps.dense.uid) ++
      fresh.map (rowOf maps.reverseDirty.get?) =
      (List.range maps.nextDocId).map (rowOf maps.uidForDocId) := by
    rw [range_split layered.counted, List.map_append]
    congr 1
    · apply List.map_congr_left
      intro docId member
      rw [rowOf, rowOf, (layered.dense_view none_gone untouched (List.mem_range.mp member)).1]
    · apply List.map_congr_left
      intro docId member
      rw [rowOf, rowOf, (layered.fresh_view none_gone ((mem_fresh docId).mp member).1).1]
  have total : ((List.range maps.nextDocId).map (rowOf maps.uidForDocId)).flatten.length < 2 ^ 32 := by
    rw [flatten_rowOf_length]
    exact small
  have partial_total : ((List.range maps.dense.docCount).map (rowOf maps.dense.uid)).flatten.length <
      2 ^ 32 := by
    rw [← rows, List.flatten_append, List.length_append] at total
    omega
  have reverse := appendReverse_eq maps fresh
    ((List.range maps.dense.docCount).map (rowOf maps.dense.uid))
  rw [rows, rowStarts_mod total, rowStarts_mod partial_total] at reverse
  have offsets : (if maps.dense.reverseOffsets.isEmpty then [0] else maps.dense.reverseOffsets) =
      rowStarts ((List.range maps.dense.docCount).map (rowOf maps.dense.uid)) := by
    rcases layered.dense.packs.offsets with starts | ⟨empty, nothing⟩
    · have nonempty : maps.dense.reverseOffsets ≠ [] := by
        intro empty
        have length := congrArg List.length starts
        rw [empty, rowStarts_length] at length
        cases length
      rw [if_neg (by simpa using nonempty), starts]
    · rw [nothing, empty]
      rfl
  set entries := fresh.filterMap fun docId =>
    (maps.reverseDirty.get? docId).map fun uid => (uid, docId) with entries_eq
  have mem_entries : ∀ uid docId, (uid, docId) ∈ entries ↔
      maps.dense.docCount ≤ docId ∧ maps.uidForDocId docId = some uid := by
    intro uid docId
    simp only [entries_eq, List.mem_filterMap, Option.map_eq_some_iff]
    constructor
    · rintro ⟨d, member, name, found, same⟩
      cases same
      have low := ((mem_fresh docId).mp member).1
      exact ⟨low, by rw [(layered.fresh_view none_gone low).1]; exact found⟩
    · rintro ⟨low, named⟩
      refine ⟨docId, (mem_fresh docId).mpr ⟨low, layered.uid_inside named⟩, uid, ?_, rfl⟩
      rwa [(layered.fresh_view none_gone low).1] at named
  have distinct : (entries.map Prod.fst).Nodup := by
    have names : entries.map Prod.fst = fresh.filterMap maps.reverseDirty.get? := by
      rw [entries_eq, List.map_filterMap]
      apply List.filterMap_congr
      intro docId _
      cases maps.reverseDirty.get? docId <;> rfl
    rw [names]
    refine List.Nodup.filterMap ?_ List.nodup_range'
    intro first second uid left right
    have forward_left := (layered.mirrored uid first).mpr left
    rw [(layered.mirrored uid second).mpr right] at forward_left
    exact (Option.some.inj forward_left).symm
  have ascending := sortByUid_ascending distinct
  have old_indexed : ∀ key docId, (maps.dense.forward.getD .empty).get? key = some docId ↔
      ∃ uid, key = utf8 uid ∧ docId < maps.dense.docCount ∧ maps.uidForDocId docId = some uid := by
    intro key docId
    rw [layered.dense.indexed]
    constructor
    · rintro ⟨uid, same, found⟩
      have low := layered.dense.inside found
      exact ⟨uid, same, low, by rw [(layered.dense_view none_gone untouched low).1]; exact found⟩
    · rintro ⟨uid, same, low, named⟩
      exact ⟨uid, same, by rw [← (layered.dense_view none_gone untouched low).1]; exact named⟩
  obtain ⟨forward, merged, indexed⟩ : ∃ forward,
      mergeForwardFst maps.dense.forward (sortByUid entries) = some forward ∧
      ∀ key docId, (forward.getD .empty).get? key = some docId ↔
        ∃ uid, key = utf8 uid ∧ maps.uidForDocId docId = some uid := by
    by_cases nothing : sortByUid entries = []
    · refine ⟨maps.dense.forward, by rw [mergeForwardFst, nothing]; rfl, ?_⟩
      intro key docId
      rw [old_indexed]
      constructor
      · rintro ⟨uid, same, _, named⟩
        exact ⟨uid, same, named⟩
      · rintro ⟨uid, same, named⟩
        refine ⟨uid, same, ?_, named⟩
        by_contra late
        have member : (utf8 uid, docId) ∈ sortByUid entries :=
          (mem_sortByUid entries _).mpr ⟨uid, rfl, (mem_entries uid docId).mpr ⟨not_lt.mp late, named⟩⟩
        rw [nothing] at member
        cases member
    · set olds := (maps.dense.forward.map SortedMap.entries).getD [] with olds_eq
      have olds_entries : olds = (maps.dense.forward.getD .empty).entries := by
        rw [olds_eq]
        cases maps.dense.forward <;> rfl
      have olds_sorted : olds.Pairwise fun a b => a.1 < b.1 := by
        rw [olds_entries]
        exact List.pairwise_map.mp (maps.dense.forward.getD .empty).sorted
      have apart : ∀ a ∈ olds, ∀ b ∈ sortByUid entries, a.1 ≠ b.1 := by
        rintro ⟨key, old⟩ before ⟨other, new⟩ after same
        rw [olds_entries, ← SortedMap.get?_eq_some_iff, old_indexed] at before
        obtain ⟨uid, rfl, low, named⟩ := before
        obtain ⟨uid', key', member⟩ := (mem_sortByUid entries _).mp after
        obtain ⟨high, named'⟩ := (mem_entries uid' new).mp member
        have same_uid : uid = uid' := utf8_inj (same.trans key')
        rw [← same_uid] at named'
        have := layered.uid_inj named named'
        omega
      have joined := mergeForwardEntries_ascending olds_sorted (List.pairwise_map.mp ascending) apart
      refine ⟨some ⟨_, List.pairwise_map.mpr joined⟩, ?_, ?_⟩
      · rw [mergeForwardFst, if_neg (by simpa using nothing), ← olds_eq,
          fstBuild_of_ascending (List.pairwise_map.mpr joined)]
        rfl
      · intro key docId
        rw [Option.getD_some, SortedMap.get?_eq_some_iff,
          (mergeForwardEntries_perm olds (sortByUid entries)).mem_iff, List.mem_append, olds_entries,
          ← SortedMap.get?_eq_some_iff, old_indexed, mem_sortByUid]
        simp only [mem_entries]
        constructor
        · rintro (⟨uid, same, _, named⟩ | ⟨uid, same, _, named⟩)
          · exact ⟨uid, same, named⟩
          · exact ⟨uid, same, named⟩
        · rintro ⟨uid, same, named⟩
          by_cases low : docId < maps.dense.docCount
          · exact .inl ⟨uid, same, low, named⟩
          · exact .inr ⟨uid, same, not_lt.mp low, named⟩
  have folded : maps.densifyAppendOnly maps.dense.docCount = some (maps.snapshot
      { forward
        reverseUids := ((List.range maps.nextDocId).map (rowOf maps.uidForDocId)).flatten
        reverseOffsets := rowStarts ((List.range maps.nextDocId).map (rowOf maps.uidForDocId))
        documents := maps.dense.documents ++ documents }) := by
    unfold IdMaps.densifyAppendOnly
    simp only [← fresh_eq, packed, ← entries_eq, Option.bind_eq_bind, Option.bind_some, offsets,
      layered.dense.packs.uids, reverse, merged]
    rfl
  have old_documents : maps.dense.documents.length = maps.dense.docCount := by
    rw [layered.dense.packs.documents, List.length_map, List.length_range]
  have fresh_length : fresh.length = maps.nextDocId - maps.dense.docCount := List.length_range'
  obtain ⟨after, uids, blobs⟩ := @Layered.snapshot maps layered
      { forward
        reverseUids := ((List.range maps.nextDocId).map (rowOf maps.uidForDocId)).flatten
        reverseOffsets := rowStarts ((List.range maps.nextDocId).map (rowOf maps.uidForDocId))
        documents := maps.dense.documents ++ documents }
    ⟨rfl, .inl rfl, by
      have := layered.counted
      rw [List.length_map, List.length_append, List.length_range, old_documents, ← all.length_eq,
        fresh_length]
      omega, by
      rw [List.length_map, List.length_range]
      exact layered.bounded⟩ indexed (by
      intro docId
      rw [DenseIdMaps.blob_eq]
      by_cases low : docId < maps.dense.docCount
      · rw [List.getElem?_append_left (by rw [old_documents]; exact low), ← DenseIdMaps.blob_eq,
          (layered.dense_view none_gone untouched low).2]
      · rw [List.getElem?_append_right (by rw [old_documents]; omega), forall₂_slots all,
          old_documents]
        by_cases inside : docId < maps.nextDocId
        · have here : fresh[docId - maps.dense.docCount]? = some docId := by
            rw [fresh_eq, List.getElem?_range' (by omega)]
            congr 1
            omega
          rw [here]
          rfl
        · rw [List.getElem?_eq_none (by rw [fresh_length]; omega),
            layered.blob_outside (not_lt.mp inside)]
          rfl)
  exact ⟨_, folded, after, rfl, rfl, rfl, uids, blobs⟩

/-- A densify changes nothing that is read, whichever way it folds the layers. -/
theorem densify {zstd : Zstd} (lossless : zstd.Lossless) (layered : Layered maps)
    (small : maps.liveUidBytes < 2 ^ 32) (sound : maps.sourceStore.Sound zstd)
    (room : maps.sourceStore.HasRoom) :
    ∃ next, maps.densify zstd = some next ∧ Layered next ∧ next.sourceStore.Sound zstd ∧
      next.liveCount = maps.liveCount ∧ next.nextDocId = maps.nextDocId ∧
      (∀ docId, next.uidForDocId docId = maps.uidForDocId docId) ∧
      (∀ docId, next.blobForDocId docId = maps.blobForDocId docId) := by
  have short := sound.pending
  unfold sourceBlockTargetBytes at short
  obtain ⟨store, flushed, _, sound'⟩ := flushPendingBlock_spec lossless room (by omega) sound.blocks
  have same : Layered { maps with sourceStore := store } :=
    ⟨layered.dense, layered.counted, layered.bounded, layered.mirrored, layered.fresh,
      layered.shadowed, layered.written, layered.owned, layered.tombstones⟩
  unfold IdMaps.densify
  rw [flushed]
  simp only [Option.bind_eq_bind, Option.bind_some]
  split
  · exact ⟨_, rfl, same, sound', rfl, rfl, fun _ => rfl, fun _ => rfl⟩
  · split
    · obtain ⟨next, folded, after, stores, rest⟩ := same.densifyFull small
      exact ⟨next, folded, after, by rw [stores]; exact sound', rest⟩
    · rename_i free
      rw [not_or, not_not] at free
      obtain ⟨none_gone, clean⟩ := free
      have untouched : ∀ docId blob, maps.documentsDirty.get? docId = some blob →
          maps.dense.docCount ≤ docId := by
        intro docId blob found
        by_contra low
        apply clean
        rw [List.any_eq_true]
        exact ⟨docId, (maps.documentsDirty.mem_keys_iff docId).mpr ⟨blob, found⟩,
          by simpa using not_le.mp low⟩
      obtain ⟨next, folded, after, stores, rest⟩ :=
        same.densifyAppendOnly small none_gone untouched
      exact ⟨next, folded, after, by rw [stores]; exact sound', rest⟩

end Layered

end Densify

end Surch.Api
