import Surch.Store.IndexStore

/-! What is found when a segment store is opened: its files in the order of their names, and an id that
no file has. -/
namespace Surch.Store
open Surch.Lib

section Names

theorem stripPrefix_append (start text : List Char) :
    stripPrefix start (start ++ text) = some text := by
  have here : start.isPrefixOf (start ++ text) = true :=
    List.isPrefixOf_iff_prefix.mpr (List.prefix_append start text)
  rw [stripPrefix, if_pos here, List.drop_left]

theorem stripSuffix_append (text ending : List Char) :
    stripSuffix ending (text ++ ending) = some text := by
  have here : ending.isSuffixOf (text ++ ending) = true :=
    List.isSuffixOf_iff_suffix.mpr (List.suffix_append text ending)
  rw [stripSuffix, if_pos here, List.length_append, Nat.add_sub_cancel, List.take_left]

theorem parseSegmentId_segmentName {id : Nat} (small : id < 2 ^ 64) :
    parseSegmentId (segmentName id) = .ok id := by
  simp only [parseSegmentId, segmentName, String.toList_ofList, stripPrefix_append,
    stripSuffix_append, parseUnsigned_zeroPadded small]

theorem segmentName_injective {i j : Nat} (small : i < 2 ^ 64) (small' : j < 2 ^ 64)
    (same : segmentName i = segmentName j) : i = j := by
  have first := parseSegmentId_segmentName small
  rw [same, parseSegmentId_segmentName small'] at first
  exact (Except.ok.inj first).symm

theorem segmentName_lt {i j : Nat} (below : i < j) (fits : j < 10 ^ 12) :
    segmentName i < segmentName j := by
  have numerals : zeroPadded 12 i < zeroPadded 12 j := zeroPadded_lt below fits (by decide)
  have lengths : (zeroPadded 12 i).length = (zeroPadded 12 j).length := by
    rw [zeroPadded_length (by omega) (by decide), zeroPadded_length fits (by decide)]
  rw [String.lt_iff_toList_lt, segmentName, segmentName, String.toList_ofList, String.toList_ofList]
  apply List.append_left_lt
  exact append_lt_append lengths numerals _ _

theorem segmentName_marked (id : Nat) :
    (segmentPrefix.isPrefixOf (segmentName id).toList &&
      segmentSuffix.isSuffixOf (segmentName id).toList) = true := by
  rw [segmentName, String.toList_ofList, Bool.and_eq_true]
  constructor
  · exact List.isPrefixOf_iff_prefix.mpr (List.prefix_append _ _)
  · apply List.isSuffixOf_iff_suffix.mpr
    rw [← List.append_assoc]
    exact List.suffix_append _ _

end Names

section Listing

def Named (bound : Nat) (files : SortedMap String PersistedSegment) : Prop :=
  ∀ name ∈ files.keys, ∃ id < bound, name = segmentName id

theorem Named.mono {bound bound' : Nat} {files : SortedMap String PersistedSegment}
    (named : Named bound files) (le : bound ≤ bound') : Named bound' files := by
  intro name member
  obtain ⟨id, below, same⟩ := named name member
  exact ⟨id, by omega, same⟩

/- The segments that the files stand for, in the order of the names. -/
def listed (files : SortedMap String PersistedSegment) : List SegmentMetadata :=
  files.entries.map fun file => ⟨file.1, file.2.records.length⟩

theorem listed_names (files : SortedMap String PersistedSegment) :
    (listed files).map SegmentMetadata.fileName = files.keys := by
  rw [listed, List.map_map]
  rfl

/-- Whatever order the directory is listed in, sorting by name gives the files in order. -/
theorem sortSegments_of_perm {files : SortedMap String PersistedSegment}
    {segments : List SegmentMetadata} (same : segments.Perm (listed files)) :
    sortSegments segments = listed files := by
  have ascending : (listed files).Pairwise fun a b => a.fileName < b.fileName := by
    rw [← List.pairwise_map, listed_names]
    exact files.sorted
  have sorted : (sortSegments segments).Pairwise fun a b => a.fileName ≤ b.fileName := by
    have : IsTrans SegmentMetadata fun a b => a.fileName ≤ b.fileName := ⟨fun _ _ _ => le_trans⟩
    have : Std.Total fun a b : SegmentMetadata => a.fileName ≤ b.fileName :=
      ⟨fun a b => le_total a.fileName b.fileName⟩
    exact List.pairwise_insertionSort _ _
  have perm : (sortSegments segments).Perm (listed files) :=
    (List.perm_insertionSort _ _).trans same
  refine perm.eq_of_pairwise ?_ sorted (ascending.imp le_of_lt)
  intro a b member member' le ge
  have distinct : ((listed files).map SegmentMetadata.fileName).Nodup := by
    rw [listed_names]
    exact files.keys_nodup
  exact List.inj_on_of_nodup_map distinct (perm.mem_iff.mp member) member'
    (le_antisymm le ge)

theorem readSegmentMetadata_spec {files : SortedMap String PersistedSegment}
    (named : Named (2 ^ 64) files) :
    ∃ segments, readSegmentMetadata files = .ok segments ∧ segments.Perm (listed files) := by
  have marked : (files.entries.filter fun file =>
      segmentPrefix.isPrefixOf file.1.toList && segmentSuffix.isSuffixOf file.1.toList) =
      files.entries := by
    apply List.filter_eq_self.mpr
    intro file member
    obtain ⟨id, _, same⟩ := named file.1 (List.mem_map.mpr ⟨file, member, rfl⟩)
    rw [same]
    exact segmentName_marked id
  let withId (file : String × PersistedSegment) : Nat × SegmentMetadata :=
    ((parseSegmentId file.1).toOption.getD 0, ⟨file.1, file.2.records.length⟩)
  have parsed : ∀ file ∈ files.entries, (do
      let fileId ← parseSegmentId file.1
      return (fileId, (⟨file.1, file.2.records.length⟩ : SegmentMetadata))) = .ok (withId file) := by
    intro file member
    obtain ⟨id, small, same⟩ := named file.1 (List.mem_map.mpr ⟨file, member, rfl⟩)
    simp only [withId, same, parseSegmentId_segmentName small]
    rfl
  refine ⟨((files.entries.map withId).insertionSort fun a b => a.1 ≤ b.1).map Prod.snd, ?_, ?_⟩
  · rw [readSegmentMetadata, marked, except_mapM_ok parsed]
    rfl
  · apply ((List.perm_insertionSort _ _).map Prod.snd).trans
    rw [List.map_map]
    exact .refl _

theorem nextSegmentId_spec {files : SortedMap String PersistedSegment} {bound : Nat}
    (named : Named bound files) (small : bound < 2 ^ 64) :
    nextSegmentId (listed files) ≤ max bound 1 ∧ Named (nextSegmentId (listed files)) files := by
  let ids := (listed files).filterMap fun segment => (parseSegmentId segment.fileName).toOption
  have used : ∀ id < 2 ^ 64, segmentName id ∈ files.keys → id ∈ ids := by
    intro id fits member
    rw [← listed_names, List.mem_map] at member
    obtain ⟨segment, inside, same⟩ := member
    exact List.mem_filterMap.mpr ⟨segment, inside, by rw [same, parseSegmentId_segmentName fits]; rfl⟩
  have bounded : ∀ id ∈ ids, id < bound := by
    intro id member
    obtain ⟨segment, inside, parsed⟩ := List.mem_filterMap.mp member
    obtain ⟨id', below, same⟩ := named segment.fileName (by
      rw [← listed_names]
      exact List.mem_map.mpr ⟨segment, inside, rfl⟩)
    rw [same, parseSegmentId_segmentName (by omega)] at parsed
    cases parsed
    exact below
  have largest : ∀ id ∈ ids, id ≤ ids.max?.getD 0 := by
    intro id member
    cases found : ids.max? with
    | none =>
      rw [List.max?_eq_none_iff] at found
      rw [found] at member
      cases member
    | some largest => exact (List.max?_eq_some_iff.mp found).2 id member
  have inside : ids.max?.getD 0 + 1 ≤ max bound 1 := by
    cases found : ids.max? with
    | none => exact le_max_right _ _
    | some largest =>
      exact le_max_of_le_left (bounded largest (List.max?_eq_some_iff.mp found).1)
  have next : nextSegmentId (listed files) = ids.max?.getD 0 + 1 :=
    Nat.mod_eq_of_lt (lt_of_le_of_lt inside (by omega))
  rw [next]
  refine ⟨inside, ?_⟩
  intro name member
  obtain ⟨id, below, rfl⟩ := named name member
  have here := largest id (used id (by omega) member)
  exact ⟨id, by omega, rfl⟩

theorem openWithConfig_spec {files : SortedMap String PersistedSegment} {bound : Nat}
    (named : Named bound files) (small : bound < 2 ^ 64) (keepRecentSegments : Nat) :
    ∃ next ≤ max bound 1, Named next files ∧
      SegmentStore.openWithConfig files keepRecentSegments =
        .ok ⟨listed files, next, max keepRecentSegments 1⟩ := by
  obtain ⟨segments, read, perm⟩ := readSegmentMetadata_spec (named.mono small.le)
  obtain ⟨le, fresh⟩ := nextSegmentId_spec named small
  refine ⟨nextSegmentId (listed files), le, fresh, ?_⟩
  rw [SegmentStore.openWithConfig, read]
  change Except.ok _ = _
  rw [sortSegments_of_perm perm]

end Listing

section Contents

def fileRecords (files : SortedMap String PersistedSegment) : List WalRecord :=
  files.entries.flatMap fun file => file.2.records

theorem readAll_spec {files : SortedMap String PersistedSegment} {segments : List SegmentMetadata}
    {held : SegmentMetadata → PersistedSegment}
    (here : ∀ segment ∈ segments, files.get? segment.fileName = some (held segment)) :
    readAll files segments = .ok (segments.flatMap fun segment => (held segment).records) := by
  have each : ∀ segment ∈ segments, readSegmentRecords files segment.fileName =
      .ok (held segment).records := by
    intro segment member
    rw [readSegmentRecords, here segment member]
  rw [readAll, except_mapM_ok each, List.flatMap]
  rfl

theorem readAll_listed (files : SortedMap String PersistedSegment) :
    readAll files (listed files) = .ok (fileRecords files) := by
  have each : ∀ segment ∈ listed files, files.get? segment.fileName =
      some ((files.get? segment.fileName).getD ⟨segment, []⟩) := by
    intro segment member
    obtain ⟨file, inside, rfl⟩ := List.mem_map.mp member
    rw [(files.get?_eq_some_iff file.1 file.2).mpr inside]
    rfl
  rw [readAll_spec each, listed, List.flatMap_map, fileRecords]
  congr 1
  apply List.flatMap_congr
  intro file inside
  rw [(files.get?_eq_some_iff file.1 file.2).mpr inside]
  rfl

end Contents

end Surch.Store
