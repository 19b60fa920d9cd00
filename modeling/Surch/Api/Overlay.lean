import Surch.Api.IdMaps
import Surch.Api.SourceRuns

/-! The id maps are one map from identifiers to documents, whichever layer an entry is in: what the
layers keep of each other, and that folding them changes nothing that is read. -/
namespace Surch.Api
open Surch.Lib Surch.Index

section Utf8

theorem utf8_eq_nil_iff (s : String) : utf8 s = [] ↔ s = "" := by
  constructor
  · intro empty
    exact utf8_inj empty
  · rintro rfl
    rfl

end Utf8

section Slots

/- A blob whose slot can be told from a hole and read back. -/
def Packable : SourceBlob → Prop
  | .onDisk offset length codec =>
    0 < length ∧ length ≤ packedLengthMax ∧ offset ≤ packedOffsetMax ∧ codec ≤ packedCodecMax
  | .compressed _ => False

theorem unpackDocumentSlot_of_pack {offset length codec slot : Nat} (nonempty : 0 < length)
    (tag : codec ≤ packedCodecMax) (packed : packDocumentSlot offset length codec = some slot) :
    unpackDocumentSlot slot = some (offset, length, codec) := by
  unfold packDocumentSlot at packed
  split at packed
  · rename_i fits
    have low : offset < 2 ^ packedOffsetBits := by
      have := fits.2
      unfold packedOffsetMax at this
      have := Nat.two_pow_pos packedOffsetBits
      omega
    have middle : length < 2 ^ packedLengthBits := by
      have := fits.1
      unfold packedLengthMax at this
      have := Nat.two_pow_pos packedLengthBits
      omega
    have masked : codec &&& packedCodecMax = codec := by
      rw [show packedCodecMax = 2 ^ 2 - 1 from rfl, Nat.and_two_pow_sub_one_eq_mod]
      exact Nat.mod_eq_of_lt (Nat.lt_succ_of_le tag)
    -- the three fields as two nested pairs
    have nested : (codec &&& packedCodecMax) <<< (packedOffsetBits + packedLengthBits) |||
        length <<< packedOffsetBits ||| offset =
        (codec <<< packedLengthBits ||| length) <<< packedOffsetBits ||| offset := by
      rw [masked, Nat.shiftLeft_or_distrib, ← Nat.shiftLeft_add, Nat.add_comm packedLengthBits]
    rw [nested, Option.some.injEq] at packed
    subst packed
    have outer := packed_fields low (codec <<< packedLengthBits ||| length)
    have inner := packed_fields middle codec
    unfold unpackDocumentSlot packedOffsetMax packedLengthMax
    rw [Nat.shiftRight_add, outer.1, outer.2, inner.1, inner.2, if_neg (by omega),
      Nat.mod_eq_of_lt (by unfold packedCodecMax at tag; omega), masked]
  · cases packed

theorem packSourceBlob_of_packable {blob : SourceBlob} (packable : Packable blob) :
    ∃ slot, packSourceBlob blob = some slot ∧
      (unpackDocumentSlot slot).map (fun slot => SourceBlob.onDisk slot.1 slot.2.1 slot.2.2) =
        some blob := by
  cases blob with
  | onDisk offset length codec =>
    obtain ⟨nonempty, short, inside, tag⟩ := packable
    have packed : packSourceBlob (.onDisk offset length codec) = some
        ((codec &&& packedCodecMax) <<< (packedOffsetBits + packedLengthBits) |||
          length <<< packedOffsetBits ||| offset) := by
      exact if_pos ⟨short, inside⟩
    refine ⟨_, packed, ?_⟩
    rw [unpackDocumentSlot_of_pack nonempty tag packed]
    rfl
  | compressed bytes => exact packable.elim

theorem packable_of_unpack {slot offset length codec : Nat}
    (found : unpackDocumentSlot slot = some (offset, length, codec)) :
    Packable (.onDisk offset length codec) := by
  unfold unpackDocumentSlot at found
  dsimp only at found
  split at found
  · cases found
  · rename_i nonempty
    cases found
    exact ⟨Nat.pos_of_ne_zero nonempty, Nat.and_le_right, Nat.and_le_right, Nat.and_le_right⟩

end Slots

section Forward

theorem mem_sortByUid (entries : List (String × Nat)) (entry : List UInt8 × Nat) :
    entry ∈ sortByUid entries ↔ ∃ uid, entry.1 = utf8 uid ∧ (uid, entry.2) ∈ entries := by
  rw [sortByUid, (List.perm_insertionSort _ _).mem_iff, List.mem_map]
  constructor
  · rintro ⟨⟨uid, docId⟩, member, rfl⟩
    exact ⟨uid, rfl, member⟩
  · rintro ⟨uid, key, member⟩
    exact ⟨(uid, entry.2), member, Prod.ext key.symm rfl⟩

theorem sortByUid_ascending {entries : List (String × Nat)} (distinct : (entries.map Prod.fst).Nodup) :
    ((sortByUid entries).map Prod.fst).Pairwise (· < ·) := by
  have total : Std.Total fun a b : List UInt8 × Nat => a.1 ≤ b.1 := ⟨fun a b => le_total a.1 b.1⟩
  have transitive : IsTrans (List UInt8 × Nat) fun a b => a.1 ≤ b.1 := ⟨fun _ _ _ => le_trans⟩
  have sorted : (sortByUid entries).Pairwise fun a b => a.1 ≤ b.1 := List.pairwise_insertionSort _ _
  have keys : ((sortByUid entries).map Prod.fst).Nodup := by
    have same : ((sortByUid entries).map Prod.fst).Perm ((entries.map Prod.fst).map utf8) := by
      rw [sortByUid, List.map_map]
      refine ((List.perm_insertionSort _ _).map Prod.fst).trans ?_
      rw [List.map_map]
      exact List.Perm.refl _
    rw [same.nodup_iff]
    exact distinct.map fun _ _ => utf8_inj
  rw [List.pairwise_map]
  have apart := List.pairwise_map.mp keys
  exact (sorted.and apart).imp fun both => lt_of_le_of_ne both.1 both.2

theorem fstBuild_of_ascending {entries : List (List UInt8 × Nat)}
    (ascending : (entries.map Prod.fst).Pairwise (· < ·)) :
    fstBuild entries = some ⟨entries, ascending⟩ := by
  unfold fstBuild
  rw [dif_pos ascending]

theorem mergeForwardEntries_perm (old entries : List (List UInt8 × Nat)) :
    (mergeForwardEntries old entries).Perm (old ++ entries) := by
  induction old generalizing entries with
  | nil => exact List.Perm.refl _
  | cons first rest ih =>
    have split := List.takeWhile_append_dropWhile
      (p := fun entry : List UInt8 × Nat => decide (entry.1 < first.1)) (l := entries)
    rw [mergeForwardEntries]
    refine (List.perm_middle).trans ?_
    rw [List.cons_append]
    refine List.Perm.cons _ ?_
    refine ((ih _).append_left _).trans ?_
    refine (List.perm_append_comm_assoc _ _ _).trans ?_
    rw [split]

theorem le_of_mem_dropWhile {entries : List (List UInt8 × Nat)} {key : List UInt8}
    (sorted : entries.Pairwise fun a b => a.1 < b.1) :
    ∀ entry ∈ entries.dropWhile fun entry => entry.1 < key, key ≤ entry.1 := by
  induction entries with
  | nil => simp
  | cons head tail ih =>
    obtain ⟨above, later⟩ := List.pairwise_cons.mp sorted
    rw [List.dropWhile_cons]
    split
    · exact ih later
    · rename_i stopped
      have reached : key ≤ head.1 := by simpa using stopped
      intro entry member
      rcases List.mem_cons.mp member with rfl | member
      · exact reached
      · exact reached.trans (above entry member).le

theorem mergeForwardEntries_ascending {old entries : List (List UInt8 × Nat)}
    (olds : old.Pairwise fun a b => a.1 < b.1) (news : entries.Pairwise fun a b => a.1 < b.1)
    (apart : ∀ a ∈ old, ∀ b ∈ entries, a.1 ≠ b.1) :
    (mergeForwardEntries old entries).Pairwise fun a b => a.1 < b.1 := by
  induction old generalizing entries with
  | nil => exact news
  | cons first rest ih =>
    obtain ⟨above, later⟩ := List.pairwise_cons.mp olds
    have inside := (List.dropWhile_sublist (fun entry : List UInt8 × Nat => entry.1 < first.1)
      (l := entries)).subset
    have below : ∀ entry ∈ entries.takeWhile (fun entry => entry.1 < first.1), entry.1 < first.1 := by
      intro entry member
      have all := List.all_eq_true.mp
        (List.all_takeWhile (p := fun entry : List UInt8 × Nat => entry.1 < first.1) (l := entries))
      simpa using all entry member
    have beyond : ∀ entry ∈ mergeForwardEntries rest
        (entries.dropWhile fun entry => entry.1 < first.1), first.1 < entry.1 := by
      intro entry member
      rcases List.mem_append.mp ((mergeForwardEntries_perm _ _).mem_iff.mp member) with old | new
      · exact above entry old
      · exact lt_of_le_of_ne (le_of_mem_dropWhile news entry new)
          (apart first List.mem_cons_self entry (inside new))
    have tail := ih later (news.sublist (List.dropWhile_sublist _)) fun a member b found =>
      apart a (List.mem_cons_of_mem _ member) b (inside found)
    rw [mergeForwardEntries, List.pairwise_append]
    refine ⟨news.sublist (List.takeWhile_sublist _), List.pairwise_cons.mpr ⟨beyond, tail⟩, ?_⟩
    intro entry member other found
    rcases List.mem_cons.mp found with rfl | found
    · exact below entry member
    · exact (below entry member).trans (beyond other found)

end Forward

section Dense

def rowOf (uids : Nat → Option String) (docId : Nat) : List UInt8 := ((uids docId).map utf8).getD []

structure DenseIdMaps.Packs (dense : DenseIdMaps) (rows : List (List UInt8)) : Prop where
  uids : dense.reverseUids = rows.flatten
  offsets : dense.reverseOffsets = rowStarts rows ∨ rows = [] ∧ dense.reverseOffsets = []
  documents : dense.documents.length = rows.length
  few : rows.length < 2 ^ 32

namespace DenseIdMaps.Packs

variable {dense : DenseIdMaps} {rows : List (List UInt8)}

theorem docCount (packs : dense.Packs rows) : dense.docCount = rows.length := by
  have few := packs.few
  unfold DenseIdMaps.docCount
  rcases packs.offsets with starts | ⟨rfl, empty⟩
  · rw [starts, rowStarts_length, Nat.add_sub_cancel, Nat.mod_eq_of_lt few]
  · rw [empty]
    rfl

theorem uid (packs : dense.Packs rows) (docId : Nat) :
    dense.uid docId = (rows[docId]?).bind fun row => if row = [] then none else fromUtf8 row := by
  unfold DenseIdMaps.uid
  rcases packs.offsets with starts | ⟨rfl, empty⟩
  · rw [starts]
    cases here : rows[docId]? with
    | none =>
      have outside := List.getElem?_eq_none_iff.mp here
      rw [List.getElem?_eq_none (by rw [rowStarts_length]; omega : _ ≤ docId + 1)]
      cases (rowStarts rows)[docId]? <;> rfl
    | some row =>
      have inside := (List.getElem?_eq_some_iff.mp here).1
      rw [rowStarts_getElem? inside.le, rowStarts_getElem? (Nat.succ_le_of_lt inside),
        rowStart_succ here]
      simp only [Option.bind_eq_bind, Option.bind_some, packs.uids, Nat.add_sub_cancel_left,
        flatten_slice here]
      by_cases hole : row = []
      · rw [if_pos hole, if_pos (by rw [hole]; rfl)]
      · have := List.length_pos_iff.mpr hole
        rw [if_neg hole, if_neg (by omega)]
  · rw [empty]
    rfl

end DenseIdMaps.Packs

theorem uid_of_packs {dense : DenseIdMaps} {uids : Nat → Option String} {n : Nat}
    (packs : dense.Packs ((List.range n).map (rowOf uids))) (named : ∀ docId, uids docId ≠ some "")
    (inside : ∀ docId uid, uids docId = some uid → docId < n) (docId : Nat) :
    dense.uid docId = uids docId := by
  rw [packs.uid, List.getElem?_map]
  by_cases covered : docId < n
  · rw [List.getElem?_range covered]
    simp only [Option.map_some, Option.bind_some, rowOf]
    cases here : uids docId with
    | none => rfl
    | some uid =>
      have nonempty : utf8 uid ≠ [] := by
        rw [Ne, utf8_eq_nil_iff]
        rintro rfl
        exact named docId here
      simp only [Option.map_some, Option.getD_some]
      rw [if_neg nonempty, fromUtf8_utf8]
  · rw [List.getElem?_eq_none (by rw [List.length_range]; omega)]
    cases here : uids docId with
    | none => rfl
    | some uid => exact absurd (inside docId uid here) covered

theorem packReverse_eq (uids : Nat → Option String) (docIds : List Nat) (distinct : docIds.Nodup)
    (rows : List (List UInt8)) :
    IdMaps.packReverse docIds
        (docIds.filterMap fun docId => (uids docId).map fun uid => (docId, uid))
        (rows.flatten, (rowStarts rows).map (· % 2 ^ 32)) =
      ((rows ++ docIds.map (rowOf uids)).flatten,
        (rowStarts (rows ++ docIds.map (rowOf uids))).map (· % 2 ^ 32)) := by
  induction docIds generalizing rows with
  | nil => rw [List.map_nil, List.append_nil]; rfl
  | cons docId rest ih =>
    obtain ⟨absent, later⟩ := List.nodup_cons.mp distinct
    have next := ih later (rows ++ [rowOf uids docId])
    rw [rowStarts_append_singleton, List.map_append, List.flatten_append, List.flatten_singleton,
      List.append_assoc, List.singleton_append] at next
    rw [List.map_cons, ← next]
    cases here : uids docId with
    | some uid =>
      rw [List.filterMap_cons, here]
      simp only [Option.map_some, IdMaps.packReverse, if_true, rowOf, here, Option.getD_some,
        List.map_cons, List.map_nil, List.length_append]
    | none =>
      rw [List.filterMap_cons, here]
      simp only [Option.map_none, rowOf, here, Option.getD_none, List.append_nil, List.length_nil,
        Nat.add_zero, List.map_cons, List.map_nil]
      cases live : rest.filterMap fun docId => (uids docId).map fun uid => (docId, uid) with
      | nil => rfl
      | cons head tail =>
        obtain ⟨other, uid⟩ := head
        have apart : other ≠ docId := by
          have member : (other, uid) ∈ rest.filterMap fun docId =>
              (uids docId).map fun uid => (docId, uid) := by rw [live]; exact List.mem_cons_self
          obtain ⟨found, inside, same⟩ := List.mem_filterMap.mp member
          obtain ⟨_, _, pair⟩ := Option.map_eq_some_iff.mp same
          cases pair
          rintro rfl
          exact absent inside
        rw [IdMaps.packReverse]
        simp only [if_neg apart]

theorem appendReverse_eq (maps : IdMaps) (docIds : List Nat) (rows : List (List UInt8)) :
    docIds.foldl maps.appendReverse (rows.flatten, (rowStarts rows).map (· % 2 ^ 32)) =
      ((rows ++ docIds.map (rowOf maps.reverseDirty.get?)).flatten,
        (rowStarts (rows ++ docIds.map (rowOf maps.reverseDirty.get?))).map (· % 2 ^ 32)) := by
  induction docIds generalizing rows with
  | nil => rw [List.map_nil, List.append_nil]; rfl
  | cons docId rest ih =>
    have next := ih (rows ++ [rowOf maps.reverseDirty.get? docId])
    rw [rowStarts_append_singleton, List.map_append, List.flatten_append, List.flatten_singleton,
      List.append_assoc, List.singleton_append] at next
    rw [List.map_cons, ← next, List.foldl_cons]
    congr 1
    simp only [IdMaps.appendReverse, rowOf, List.length_append, List.map_cons, List.map_nil]

theorem rowStarts_mod {rows : List (List UInt8)} (small : rows.flatten.length < 2 ^ 32) :
    (rowStarts rows).map (· % 2 ^ 32) = rowStarts rows := by
  rw [rowStarts, List.map_map]
  apply List.map_congr_left
  intro i member
  have bound : rowStart rows i ≤ rows.flatten.length := by
    rw [rowStart_eq_flatten]
    conv_rhs => rw [← List.take_append_drop i rows, List.flatten_append, List.length_append]
    omega
  exact Nat.mod_eq_of_lt (by omega)

/- The snapshot by itself: its spans, its index of identifiers and its slots agree. -/
structure DenseIdMaps.Sound (dense : DenseIdMaps) : Prop where
  packs : dense.Packs ((List.range dense.docCount).map (rowOf dense.uid))
  named : ∀ docId, dense.uid docId ≠ some ""
  indexed : ∀ key docId, (dense.forward.getD .empty).get? key = some docId ↔
    ∃ uid, key = utf8 uid ∧ dense.uid docId = some uid
  stored : ∀ docId, (dense.blob docId).isSome = (dense.uid docId).isSome

namespace DenseIdMaps.Sound

variable {dense : DenseIdMaps}

theorem inside (sound : dense.Sound) {docId : Nat} {uid : String}
    (found : dense.uid docId = some uid) : docId < dense.docCount := by
  rw [sound.packs.uid] at found
  obtain ⟨row, here, _⟩ := Option.bind_eq_some_iff.mp found
  have := (List.getElem?_eq_some_iff.mp here).1
  rwa [List.length_map, List.length_range] at this

theorem forwardGet (sound : dense.Sound) (uid : String) (docId : Nat) :
    dense.forwardGet uid = some docId ↔ dense.uid docId = some uid := by
  have few := sound.packs.few
  rw [List.length_map, List.length_range] at few
  have direct : dense.forwardGet uid = (dense.forward.getD .empty).get? (utf8 uid) := by
    unfold DenseIdMaps.forwardGet
    cases shape : dense.forward with
    | none => rfl
    | some forward =>
      simp only [Option.bind_some, Option.getD_some]
      cases found : forward.get? (utf8 uid) with
      | none => rfl
      | some d =>
        obtain ⟨other, _, at_d⟩ := (sound.indexed (utf8 uid) d).mp (by rw [shape]; exact found)
        have := sound.inside at_d
        rw [Option.map_some, Nat.mod_eq_of_lt (by omega)]
  rw [direct, sound.indexed]
  constructor
  · rintro ⟨other, key, found⟩
    rwa [utf8_inj key]
  · intro found
    exact ⟨uid, rfl, found⟩

end DenseIdMaps.Sound

theorem default_sound : DenseIdMaps.default.Sound where
  packs := ⟨rfl, .inr ⟨rfl, rfl⟩, rfl, by decide⟩
  named docId := by
    unfold DenseIdMaps.uid
    simp [DenseIdMaps.default]
  indexed key docId := by
    simp [DenseIdMaps.default, DenseIdMaps.uid]
  stored docId := by
    simp [DenseIdMaps.default, DenseIdMaps.uid, DenseIdMaps.blob]

end Dense

section Layers

structure Layered (maps : IdMaps) : Prop where
  dense : maps.dense.Sound
  counted : maps.dense.docCount ≤ maps.nextDocId
  bounded : maps.nextDocId < 2 ^ 32
  mirrored : ∀ uid docId, maps.forwardDirty.get? uid = some docId ↔
    maps.reverseDirty.get? docId = some uid
  fresh : ∀ docId uid, maps.reverseDirty.get? docId = some uid →
    maps.dense.docCount ≤ docId ∧ docId < maps.nextDocId ∧ uid ≠ ""
  shadowed : ∀ docId uid old, maps.reverseDirty.get? docId = some uid →
    maps.dense.uid old = some uid → old ∈ maps.deletedSinceDense
  written : ∀ docId uid, maps.reverseDirty.get? docId = some uid →
    (maps.documentsDirty.get? docId).isSome
  owned : ∀ docId blob, maps.documentsDirty.get? docId = some blob →
    Packable blob ∧ (maps.uidForDocId docId).isSome
  tombstones : ∀ docId ∈ maps.deletedSinceDense, ∃ uid, maps.dense.uid docId = some uid

variable {maps : IdMaps}

theorem IdMaps.uidForDocId_eq_some_iff (docId : Nat) (uid : String) :
    maps.uidForDocId docId = some uid ↔ docId ∉ maps.deletedSinceDense ∧
      (maps.reverseDirty.get? docId = some uid ∨
        maps.reverseDirty.get? docId = none ∧ maps.dense.uid docId = some uid) := by
  unfold IdMaps.uidForDocId
  by_cases gone : docId ∈ maps.deletedSinceDense
  · simp [gone]
  · cases maps.reverseDirty.get? docId <;> simp [gone]

namespace Layered

theorem not_tombstoned (layered : Layered maps) {docId : Nat} (fresh : maps.dense.docCount ≤ docId) :
    docId ∉ maps.deletedSinceDense := by
  intro gone
  obtain ⟨uid, found⟩ := layered.tombstones docId gone
  have := layered.dense.inside found
  omega

theorem reverseDirty_dense (layered : Layered maps) {docId : Nat}
    (old : docId < maps.dense.docCount) : maps.reverseDirty.get? docId = none := by
  cases found : maps.reverseDirty.get? docId with
  | none => rfl
  | some uid =>
    have := (layered.fresh docId uid found).1
    omega

theorem uid_inside (layered : Layered maps) {docId : Nat} {uid : String}
    (found : maps.uidForDocId docId = some uid) : docId < maps.nextDocId := by
  obtain ⟨_, dirty | ⟨_, old⟩⟩ := (maps.uidForDocId_eq_some_iff docId uid).mp found
  · exact (layered.fresh docId uid dirty).2.1
  · exact (layered.dense.inside old).trans_le layered.counted

theorem uid_named (layered : Layered maps) (docId : Nat) : maps.uidForDocId docId ≠ some "" := by
  intro found
  obtain ⟨_, dirty | ⟨_, old⟩⟩ := (maps.uidForDocId_eq_some_iff docId "").mp found
  · exact (layered.fresh docId "" dirty).2.2 rfl
  · exact layered.dense.named docId old

/-- Resolving an identifier and naming a document are inverse. -/
theorem resolveUid_iff (layered : Layered maps) (uid : String) (docId : Nat) :
    maps.resolveUid uid = some docId ↔ maps.uidForDocId docId = some uid := by
  rw [maps.uidForDocId_eq_some_iff]
  unfold IdMaps.resolveUid
  constructor
  · intro resolved
    split at resolved
    · rename_i d dirty
      cases resolved
      have named := (layered.mirrored uid docId).mp dirty
      exact ⟨layered.not_tombstoned (layered.fresh docId uid named).1, .inl named⟩
    · obtain ⟨d, found, kept⟩ := Option.bind_eq_some_iff.mp resolved
      split at kept
      · cases kept
      · rename_i alive
        cases kept
        have old := (layered.dense.forwardGet uid docId).mp found
        exact ⟨alive, .inr ⟨layered.reverseDirty_dense (layered.dense.inside old), old⟩⟩
  · rintro ⟨alive, dirty | ⟨_, old⟩⟩
    · rw [(layered.mirrored uid docId).mpr dirty]
    · have missing : maps.forwardDirty.get? uid = none := by
        cases found : maps.forwardDirty.get? uid with
        | none => rfl
        | some other =>
          have named := (layered.mirrored uid other).mp found
          exact absurd (layered.shadowed other uid docId named old) alive
      rw [missing, (layered.dense.forwardGet uid docId).mpr old]
      simp [alive]

/-- A document has a source exactly when it has an identifier. -/
theorem blob_isSome (layered : Layered maps) (docId : Nat) :
    (maps.blobForDocId docId).isSome = (maps.uidForDocId docId).isSome := by
  by_cases gone : docId ∈ maps.deletedSinceDense
  · simp [IdMaps.blobForDocId, IdMaps.uidForDocId, gone]
  · have stored := layered.dense.stored docId
    cases dirty : maps.documentsDirty.get? docId with
    | some blob =>
      have named := (layered.owned docId blob dirty).2
      simp [IdMaps.blobForDocId, gone, dirty, named]
    | none =>
      have missing : maps.reverseDirty.get? docId = none := by
        cases found : maps.reverseDirty.get? docId with
        | none => rfl
        | some uid =>
          have := layered.written docId uid found
          rw [dirty] at this
          cases this
      simp [IdMaps.blobForDocId, IdMaps.uidForDocId, gone, dirty, missing, stored]

theorem blob_packable (layered : Layered maps) {docId : Nat} {blob : SourceBlob}
    (found : maps.blobForDocId docId = some blob) : Packable blob := by
  unfold IdMaps.blobForDocId at found
  split at found
  · cases found
  · cases dirty : maps.documentsDirty.get? docId with
    | some given =>
      rw [dirty] at found
      cases found
      exact (layered.owned docId blob dirty).1
    | none =>
      rw [dirty, Option.none_or] at found
      obtain ⟨slot, _, rest⟩ := Option.bind_eq_some_iff.mp found
      obtain ⟨⟨offset, length, codec⟩, unpacked, same⟩ := Option.bind_eq_some_iff.mp rest
      cases same
      exact packable_of_unpack unpacked

/-- A snapshot that reads as the layers did can take their place. -/
theorem snapshot (layered : Layered maps) {dense : DenseIdMaps}
    (packs : dense.Packs ((List.range maps.nextDocId).map (rowOf maps.uidForDocId)))
    (indexed : ∀ key docId, (dense.forward.getD .empty).get? key = some docId ↔
      ∃ uid, key = utf8 uid ∧ maps.uidForDocId docId = some uid)
    (stored : ∀ docId, dense.blob docId = maps.blobForDocId docId) :
    Layered (maps.snapshot dense) ∧
      (∀ docId, (maps.snapshot dense).uidForDocId docId = maps.uidForDocId docId) ∧
      (∀ docId, (maps.snapshot dense).blobForDocId docId = maps.blobForDocId docId) := by
  have uids : ∀ docId, dense.uid docId = maps.uidForDocId docId :=
    uid_of_packs packs layered.uid_named fun docId uid => layered.uid_inside
  have count : dense.docCount = maps.nextDocId := by
    rw [packs.docCount, List.length_map, List.length_range]
  have same : dense.uid = maps.uidForDocId := funext uids
  have views : ∀ docId, (maps.snapshot dense).uidForDocId docId = maps.uidForDocId docId := by
    intro docId
    rw [← uids]
    rfl
  refine ⟨?_, views, ?_⟩
  · refine ⟨⟨?_, ?_, ?_, ?_⟩, ?_, layered.bounded, ?_, ?_, ?_, ?_, ?_, ?_⟩
    · exact by rw [IdMaps.snapshot, count, same]; exact packs
    · exact fun docId => by rw [IdMaps.snapshot, uids]; exact layered.uid_named docId
    · exact fun key docId => by rw [IdMaps.snapshot, uids]; exact indexed key docId
    · exact fun docId => by rw [IdMaps.snapshot, uids, stored]; exact layered.blob_isSome docId
    · exact count.le
    · intro uid docId
      simp [IdMaps.snapshot]
    · intro docId uid found
      cases found
    · intro docId uid old found
      cases found
    · intro docId uid found
      cases found
    · intro docId blob found
      cases found
    · intro docId gone
      simp [IdMaps.snapshot] at gone
  · intro docId
    rw [← stored]
    rfl

end Layered

end Layers

section Operations

variable {maps : IdMaps}

def IdMaps.liveUidBytes (maps : IdMaps) : Nat :=
  (((List.range maps.nextDocId).filterMap maps.uidForDocId).map fun uid => (utf8 uid).length).sum

theorem flatten_rowOf_length (uids : Nat → Option String) (docIds : List Nat) :
    (docIds.map (rowOf uids)).flatten.length =
      ((docIds.filterMap uids).map fun uid => (utf8 uid).length).sum := by
  induction docIds with
  | nil => rfl
  | cons docId rest ih =>
    rw [List.map_cons, List.flatten_cons, List.length_append, ih, List.filterMap_cons]
    cases here : uids docId <;> simp [rowOf, here]

/-- A known identifier: only the source of its document changes. -/
theorem Layered.update (layered : Layered maps) {id : String} {docId : Nat} {blob : SourceBlob}
    (resolved : maps.resolveUid id = some docId) (packable : Packable blob) :
    Layered { maps with documentsDirty := maps.documentsDirty.upsert docId fun _ => blob } ∧
      ∀ d, IdMaps.blobForDocId
        { maps with documentsDirty := maps.documentsDirty.upsert docId fun _ => blob } d =
          if d = docId then some blob else maps.blobForDocId d := by
  have named := (layered.resolveUid_iff id docId).mp resolved
  have alive := ((maps.uidForDocId_eq_some_iff docId id).mp named).1
  refine ⟨⟨layered.dense, layered.counted, layered.bounded, layered.mirrored, layered.fresh,
    layered.shadowed, ?_, ?_, layered.tombstones⟩, ?_⟩
  · intro d uid found
    have before := layered.written d uid found
    rw [SortedMap.get?_upsert]
    split
    · rfl
    · exact before
  · intro d given found
    rw [SortedMap.get?_upsert] at found
    split at found
    · rename_i same
      cases found
      refine ⟨packable, ?_⟩
      rw [same]
      exact Option.isSome_iff_exists.mpr ⟨id, named⟩
    · exact layered.owned d given found
  · intro d
    unfold IdMaps.blobForDocId
    rw [SortedMap.get?_upsert]
    by_cases same : d = docId
    · subst same
      simp [alive]
    · simp [same]

theorem Layered.insertion (layered : Layered maps) {id : String} {blob : SourceBlob} (nonempty : id ≠ "")
    (missing : maps.resolveUid id = none) (packable : Packable blob)
    (left : maps.nextDocId + 1 < 2 ^ 32) :
    let next : IdMaps := { maps with
      nextDocId := (maps.nextDocId + 1) % 2 ^ 32
      reverseDirty := maps.reverseDirty.upsert maps.nextDocId fun _ => id
      forwardDirty := maps.forwardDirty.upsert id fun _ => maps.nextDocId
      documentsDirty := maps.documentsDirty.upsert maps.nextDocId fun _ => blob
      liveCount := maps.liveCount + 1 }
    Layered next ∧ next.nextDocId = maps.nextDocId + 1 ∧
      (∀ d, next.uidForDocId d = if d = maps.nextDocId then some id else maps.uidForDocId d) ∧
      (∀ d, next.blobForDocId d = if d = maps.nextDocId then some blob else maps.blobForDocId d) := by
  intro next
  have alive := layered.not_tombstoned layered.counted
  have after : next.nextDocId = maps.nextDocId + 1 := Nat.mod_eq_of_lt left
  have unnamed : ∀ d, maps.uidForDocId d ≠ some id := by
    intro d named
    rw [(layered.resolveUid_iff id d).mpr named] at missing
    cases missing
  have unused : maps.reverseDirty.get? maps.nextDocId = none := by
    cases found : maps.reverseDirty.get? maps.nextDocId with
    | none => rfl
    | some uid => exact absurd (layered.fresh _ _ found).2.1 (lt_irrefl _)
  have uids : ∀ d, next.uidForDocId d =
      if d = maps.nextDocId then some id else maps.uidForDocId d := by
    intro d
    unfold IdMaps.uidForDocId
    rw [SortedMap.get?_upsert]
    by_cases same : d = maps.nextDocId
    · subst same
      simp [next, alive]
    · simp [next, same]
  refine ⟨⟨layered.dense, ?_, ?_, ?_, ?_, ?_, ?_, ?_, layered.tombstones⟩, after, uids, ?_⟩
  · rw [after]
    exact layered.counted.trans (Nat.le_succ _)
  · rw [after]
    exact left
  · intro uid d
    rw [SortedMap.get?_upsert, SortedMap.get?_upsert]
    by_cases same : uid = id
    · subst same
      rw [if_pos rfl]
      by_cases here : d = maps.nextDocId
      · simp [here]
      · rw [if_neg here, ← layered.mirrored]
        constructor
        · intro found
          exact absurd (Option.some.inj found).symm here
        · intro found
          have dirty := (layered.mirrored uid d).mp found
          refine absurd ((maps.uidForDocId_eq_some_iff d uid).mpr ⟨?_, .inl dirty⟩) (unnamed d)
          exact layered.not_tombstoned (layered.fresh d uid dirty).1
    · rw [if_neg same, layered.mirrored]
      by_cases here : d = maps.nextDocId
      · subst here
        rw [if_pos rfl, unused]
        simp [Ne.symm same]
      · rw [if_neg here]
  · intro d uid found
    rw [SortedMap.get?_upsert] at found
    split at found
    · rename_i here
      cases found
      rw [here, after]
      exact ⟨layered.counted, Nat.lt_succ_self _, nonempty⟩
    · obtain ⟨low, high, named⟩ := layered.fresh d uid found
      exact ⟨low, by rw [after]; omega, named⟩
  · intro d uid old found before
    rw [SortedMap.get?_upsert] at found
    split at found
    · cases found
      -- the identifier was not live, so that its old document is tombstoned
      by_contra alive_old
      refine unnamed old ((maps.uidForDocId_eq_some_iff old id).mpr ⟨alive_old, .inr ⟨?_, before⟩⟩)
      exact layered.reverseDirty_dense (layered.dense.inside before)
    · exact layered.shadowed d uid old found before
  · intro d uid found
    rw [SortedMap.get?_upsert] at found ⊢
    split at found
    · rename_i here
      rw [if_pos here]
      rfl
    · rename_i here
      rw [if_neg here]
      exact layered.written d uid found
  · intro d given found
    rw [uids]
    rw [SortedMap.get?_upsert] at found
    split at found
    · rename_i here
      cases found
      rw [if_pos here]
      exact ⟨packable, rfl⟩
    · rename_i here
      rw [if_neg here]
      exact layered.owned d given found
  · intro d
    unfold IdMaps.blobForDocId
    rw [SortedMap.get?_upsert]
    by_cases same : d = maps.nextDocId
    · subst same
      simp [next, alive]
    · simp [next, same]

/-- A deleted document has neither identifier nor source, and the others keep theirs. -/
theorem Layered.deletion (layered : Layered maps) {id : String} {docId : Nat}
    (resolved : maps.resolveUid id = some docId) :
    let next := (maps.deleteDocumentDeferred id).2
    Layered next ∧
      (∀ d, next.uidForDocId d = if d = docId then none else maps.uidForDocId d) ∧
      (∀ d, next.blobForDocId d = if d = docId then none else maps.blobForDocId d) := by
  intro next
  have named := (layered.resolveUid_iff id docId).mp resolved
  obtain ⟨alive, home⟩ := (maps.uidForDocId_eq_some_iff docId id).mp named
  have shape : next =
      { maps with
        forwardDirty := maps.forwardDirty.erase id
        reverseDirty := maps.reverseDirty.erase docId
        documentsDirty := maps.documentsDirty.erase docId
        deletedSinceDense :=
          if docId < maps.dense.docCount then insert docId maps.deletedSinceDense
          else maps.deletedSinceDense
        liveCount := maps.liveCount - 1 } := by
    simp only [next, IdMaps.deleteDocumentDeferred, resolved]
  have gone : ∀ d, d ∈ next.deletedSinceDense ↔
      d ∈ maps.deletedSinceDense ∨ d = docId ∧ docId < maps.dense.docCount := by
    intro d
    rw [shape]
    dsimp only
    split
    · rename_i old
      simp [old, or_comm]
    · rename_i recent
      simp [recent]
  have dense_same : next.dense = maps.dense := by rw [shape]
  have reverse_same : next.reverseDirty = maps.reverseDirty.erase docId := by rw [shape]
  have documents_same : next.documentsDirty = maps.documentsDirty.erase docId := by rw [shape]
  have dense_none : ¬ docId < maps.dense.docCount → maps.dense.uid docId = none := by
    intro recent
    cases found : maps.dense.uid docId with
    | none => rfl
    | some uid => exact absurd (layered.dense.inside found) recent
  have uids : ∀ d, next.uidForDocId d = if d = docId then none else maps.uidForDocId d := by
    intro d
    by_cases same : d = docId
    · subst same
      rw [if_pos rfl]
      unfold IdMaps.uidForDocId
      by_cases old : d < maps.dense.docCount
      · rw [if_pos ((gone d).mpr (.inr ⟨rfl, old⟩))]
      · rw [if_neg (by rw [gone]; simp [alive, old]), shape]
        simp [dense_none old]
    · rw [if_neg same]
      unfold IdMaps.uidForDocId
      have kept : d ∈ next.deletedSinceDense ↔ d ∈ maps.deletedSinceDense := by
        rw [gone]
        simp [same]
      simp only [kept, dense_same, reverse_same, SortedMap.get?_erase, if_neg same]
  have blobs : ∀ d, next.blobForDocId d = if d = docId then none else maps.blobForDocId d := by
    intro d
    by_cases same : d = docId
    · subst same
      rw [if_pos rfl]
      unfold IdMaps.blobForDocId
      by_cases old : d < maps.dense.docCount
      · rw [if_pos ((gone d).mpr (.inr ⟨rfl, old⟩))]
      · have missing : maps.dense.blob d = none := by
          have stored := layered.dense.stored d
          rw [dense_none old] at stored
          simpa using stored
        rw [if_neg (by rw [gone]; simp [alive, old]), shape]
        simp [missing]
    · rw [if_neg same]
      unfold IdMaps.blobForDocId
      have kept : d ∈ next.deletedSinceDense ↔ d ∈ maps.deletedSinceDense := by
        rw [gone]
        simp [same]
      simp only [kept, dense_same, documents_same, SortedMap.get?_erase, if_neg same]
  have reverse : ∀ d uid, next.reverseDirty.get? d = some uid ↔
      d ≠ docId ∧ maps.reverseDirty.get? d = some uid := by
    intro d uid
    rw [reverse_same, SortedMap.get?_erase]
    by_cases same : d = docId <;> simp [same]
  have next_same : next.nextDocId = maps.nextDocId := by rw [shape]
  refine ⟨⟨?_, ?_, ?_, ?_, ?_, ?_, ?_, ?_, ?_⟩, uids, blobs⟩
  · rw [dense_same]
    exact layered.dense
  · rw [dense_same, next_same]
    exact layered.counted
  · rw [next_same]
    exact layered.bounded
  · intro uid d
    rw [reverse, shape]
    dsimp only
    rw [SortedMap.get?_erase]
    by_cases same : uid = id
    · subst same
      rw [if_pos rfl]
      constructor
      · intro found
        cases found
      · rintro ⟨apart, dirty⟩
        have also : maps.uidForDocId d = some uid := (maps.uidForDocId_eq_some_iff d uid).mpr
          ⟨layered.not_tombstoned (layered.fresh d uid dirty).1, .inl dirty⟩
        rw [← layered.resolveUid_iff, resolved] at also
        exact absurd (Option.some.inj also).symm apart
    · rw [if_neg same, layered.mirrored]
      constructor
      · intro dirty
        refine ⟨?_, dirty⟩
        rintro rfl
        rcases home with at_home | ⟨nothing, _⟩
        · rw [dirty] at at_home
          exact same (Option.some.inj at_home)
        · rw [dirty] at nothing
          cases nothing
      · exact fun both => both.2
  · intro d uid found
    rw [dense_same, next_same]
    exact layered.fresh d uid ((reverse d uid).mp found).2
  · intro d uid old found before
    rw [dense_same] at before
    rw [gone]
    exact .inl (layered.shadowed d uid old ((reverse d uid).mp found).2 before)
  · intro d uid found
    obtain ⟨apart, dirty⟩ := (reverse d uid).mp found
    rw [shape]
    dsimp only
    rw [SortedMap.get?_erase, if_neg apart]
    exact layered.written d uid dirty
  · intro d blob found
    rw [shape] at found
    dsimp only at found
    rw [SortedMap.get?_erase] at found
    split at found
    · cases found
    · rename_i apart
      rw [uids, if_neg apart]
      exact layered.owned d blob found
  · intro d tombstoned
    rw [dense_same]
    rcases (gone d).mp tombstoned with before | ⟨rfl, old⟩
    · exact layered.tombstones d before
    · rcases home with dirty | ⟨_, found⟩
      · have := (layered.fresh _ _ dirty).1
        omega
      · exact ⟨id, found⟩

end Operations

end Surch.Api
