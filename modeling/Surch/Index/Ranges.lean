import Surch.Lib.Tiling
import Surch.Index.Steps

/-! The segments of an index tile its documents: each live document lies in the range of its own
segment, and sealing and merging move none of them. -/
namespace Surch.Index
open Surch.Lib Surch.Postings

variable {Digest : Type} {settings : Settings Digest}

namespace DocumentIndex

structure Ranged (index : DocumentIndex Digest) : Prop where
  tiles : Tiles Segment.docBase Segment.docCount 0 index.active.docBase index.sealedSegments
  sealed : ∀ segment ∈ index.sealedSegments, 0 < segment.docCount ∧
    ∀ docId, segment.liveDocs.contains docId = true → docId < segment.docCount
  active : ∀ docId, index.active.liveDocs.contains docId = true →
    index.active.docBase + docId < index.nextDocIdHint
  hint : index.active.docBase ≤ index.nextDocIdHint
  bounded : index.nextDocIdHint < 2 ^ 32

def Holds (index : DocumentIndex Digest) (docId : Nat) : Prop :=
  ∃ segment ∈ index.segments, segment.docBase ≤ docId ∧
    segment.liveDocs.contains (docId - segment.docBase) = true

theorem new_ranged : (new : DocumentIndex Digest).Ranged where
  tiles := rfl
  sealed := by simp [new]
  active := by simp [new, Segment.new]
  hint := by simp [new, Segment.new]
  bounded := by simp [new]

theorem not_holds_new (docId : Nat) : ¬ (new : DocumentIndex Digest).Holds docId := by
  rintro ⟨segment, member, _, live⟩
  obtain rfl : segment = .new 0 := by simpa [segments, new] using member
  simp [Segment.new] at live

variable {index : DocumentIndex Digest}

theorem Ranged.live_lt (ranged : index.Ranged) {segment : Segment Digest}
    (member : segment ∈ index.segments) {docId : Nat}
    (live : segment.liveDocs.contains docId = true) : segment.docBase + docId < 2 ^ 32 := by
  have low := ranged.hint
  have high := ranged.bounded
  rcases List.mem_append.mp member with member | member
  · have inside := (ranged.tiles.inside segment member).2
    have := (ranged.sealed segment member).2 docId live
    omega
  · obtain rfl := List.mem_singleton.mp member
    have := ranged.active docId live
    omega

theorem Ranged.mem_docIds (ranged : index.Ranged) (docId : Nat) :
    docId ∈ index.docIds ↔ index.Holds docId := by
  simp only [docIds, List.mem_flatMap, List.mem_map, LiveDocsBitset.mem_iter]
  constructor
  · rintro ⟨segment, member, d, live, rfl⟩
    have small := ranged.live_lt member live
    refine ⟨segment, member, ?_, ?_⟩
    · rw [Nat.mod_eq_of_lt (by omega)]
      omega
    · rw [Nat.mod_eq_of_lt (by omega), Nat.add_sub_cancel]
      exact live
  · rintro ⟨segment, member, low, live⟩
    have small := ranged.live_lt member live
    exact ⟨segment, member, docId - segment.docBase, live,
      by rw [Nat.sub_add_cancel low, Nat.mod_eq_of_lt (by omega)]⟩

theorem Ranged.holds_lt (ranged : index.Ranged) {docId : Nat} (held : index.Holds docId) :
    docId < index.nextDocIdHint := by
  obtain ⟨segment, member, low, live⟩ := held
  have above := ranged.hint
  rcases List.mem_append.mp member with member | member
  · have inside := (ranged.tiles.inside segment member).2
    have := (ranged.sealed segment member).2 _ live
    omega
  · obtain rfl := List.mem_singleton.mp member
    have := ranged.active _ live
    omega

structure Unmoved (before after : DocumentIndex Digest) : Prop where
  ranged : after.Ranged
  hint : after.nextDocIdHint = before.nextDocIdHint
  holds : ∀ docId, after.Holds docId ↔ before.Holds docId

theorem Ranged.unmoved (ranged : index.Ranged) : Unmoved index index :=
  ⟨ranged, rfl, fun _ => Iff.rfl⟩

theorem Unmoved.trans {first second third : DocumentIndex Digest} (left : Unmoved first second)
    (right : Unmoved second third) : Unmoved first third :=
  ⟨right.ranged, right.hint.trans left.hint, fun docId => (right.holds docId).trans (left.holds docId)⟩

theorem Ranged.of_same (ranged : index.Ranged) (next : DocumentIndex Digest)
    (sealed : next.sealedSegments = index.sealedSegments)
    (base : next.active.docBase = index.active.docBase)
    (live : next.active.liveDocs = index.active.liveDocs)
    (hint : next.nextDocIdHint = index.nextDocIdHint) : Unmoved index next := by
  refine ⟨⟨?_, ?_, ?_, ?_, ?_⟩, hint, ?_⟩
  · rw [sealed, base]
    exact ranged.tiles
  · rw [sealed]
    exact ranged.sealed
  · rw [live, base, hint]
    exact ranged.active
  · rw [base, hint]
    exact ranged.hint
  · rw [hint]
    exact ranged.bounded
  · intro docId
    simp only [Holds, segments, sealed, List.mem_append, List.mem_singleton, or_and_right, exists_or,
      exists_eq_left, base, live]

section Adding

theorem mergeAnalyzed_ok {document : AnalyzedDocument} {next : DocumentIndex Digest}
    (merged : index.mergeAnalyzed document = (.ok (), next)) :
    ∃ builder, recordPostings document.docId index.postingsBuilder document.postings =
        (.ok (), builder) ∧
      next = { (index.recordSubfieldValues document).recordPrefixes document with
        postingsBuilder := builder }.recordLengths document := by
  simp only [mergeAnalyzed] at merged
  split at merged
  · cases merged
  · rename_i builder accepted
    cases merged
    exact ⟨builder, accepted, rfl⟩

/-- The document that `merge_analyzed` has finished with is live, and no other one has changed. -/
theorem mergeAnalyzed_ranged (ranged : index.Ranged) {document : AnalyzedDocument}
    {next : DocumentIndex Digest} (above : index.active.docBase ≤ document.docId)
    (below : document.docId < 2 ^ 32 - 1)
    (merged : index.mergeAnalyzed document = (.ok (), next)) :
    next.Ranged ∧ next.nextDocIdHint = max index.nextDocIdHint (document.docId + 1) ∧
      ∀ docId, next.Holds docId ↔ docId = document.docId ∨ index.Holds docId := by
  have kept := mergeAnalyzed_kept index document
  rw [merged] at kept
  obtain ⟨builder, _, result⟩ := mergeAnalyzed_ok merged
  have live : next.active.liveDocs =
      index.active.liveDocs.insert (document.docId - index.active.docBase) := by
    rw [result]
    rfl
  have hint : next.nextDocIdHint = max index.nextDocIdHint (document.docId + 1) := by
    rw [result]
    simp only [recordLengths, recordPrefixes, recordSubfieldValues]
    omega
  have base := kept.docBase
  have sealedSame : next.sealedSegments = index.sealedSegments := kept.sealedSegments
  have low := ranged.hint
  have high := ranged.bounded
  refine ⟨⟨?_, ?_, ?_, ?_, ?_⟩, hint, ?_⟩
  · rw [sealedSame, base]
    exact ranged.tiles
  · rw [sealedSame]
    exact ranged.sealed
  · intro docId contains
    rw [live, LiveDocsBitset.contains_insert, Bool.or_eq_true, beq_iff_eq] at contains
    rw [base, hint]
    rcases contains with rfl | contains
    · omega
    · have := ranged.active docId contains
      omega
  · rw [base, hint]
    omega
  · rw [hint]
    omega
  · intro docId
    simp only [Holds, segments, sealedSame, List.mem_append, List.mem_singleton]
    constructor
    · rintro ⟨segment, member | rfl, under, contains⟩
      · exact .inr ⟨segment, .inl member, under, contains⟩
      · rw [base] at under contains
        rw [live, LiveDocsBitset.contains_insert, Bool.or_eq_true, beq_iff_eq] at contains
        rcases contains with same | contains
        · exact .inl (by omega)
        · exact .inr ⟨index.active, .inr rfl, under, contains⟩
    · rintro (rfl | ⟨segment, member | rfl, under, contains⟩)
      · refine ⟨next.active, .inr rfl, ?_, ?_⟩
        · rw [base]
          exact above
        · rw [base, live, LiveDocsBitset.contains_insert]
          simp
      · exact ⟨segment, .inl member, under, contains⟩
      · refine ⟨next.active, .inr rfl, by rw [base]; exact under, ?_⟩
        rw [base, live, LiveDocsBitset.contains_insert, contains, Bool.or_true]

theorem mergeAll_ranged (ranged : index.Ranged) {documents : List AnalyzedDocument}
    {next : DocumentIndex Digest}
    (above : ∀ document ∈ documents, index.active.docBase ≤ document.docId)
    (below : ∀ document ∈ documents, document.docId < 2 ^ 32 - 1)
    (merged : index.mergeAll documents = (.ok (), next)) :
    next.Ranged ∧
      (∀ bound, index.nextDocIdHint ≤ bound → (∀ document ∈ documents, document.docId < bound) →
        next.nextDocIdHint ≤ bound) ∧
      ∀ docId, next.Holds docId ↔ (∃ document ∈ documents, document.docId = docId) ∨
        index.Holds docId := by
  induction documents generalizing index with
  | nil =>
    cases merged
    exact ⟨ranged, fun _ under _ => under, by simp⟩
  | cons document rest ih =>
    rw [mergeAll] at merged
    split at merged
    · cases merged
    · rename_i middle one
      have kept := mergeAnalyzed_kept index document
      rw [one] at kept
      obtain ⟨ranged', hint, held⟩ := mergeAnalyzed_ranged ranged (above document List.mem_cons_self)
        (below document List.mem_cons_self) one
      obtain ⟨done, capped, all⟩ := ih ranged'
        (fun other member => kept.docBase ▸ above other (List.mem_cons_of_mem _ member))
        (fun other member => below other (List.mem_cons_of_mem _ member)) merged
      refine ⟨done, ?_, ?_⟩
      · intro bound under inside
        have here := inside document List.mem_cons_self
        exact capped bound (by omega) fun other member => inside other (List.mem_cons_of_mem _ member)
      intro docId
      rw [all, held, List.exists_mem_cons_iff, @eq_comm _ docId, ← or_assoc,
        or_comm (a := ∃ other ∈ rest, _)]

theorem validateDocument_ok_iff (seen : List Nat) (document : Document) :
    index.validateDocument seen document = .ok () ↔
      index.active.docBase ≤ document.docId ∧
        index.active.liveDocs.contains (document.docId - index.active.docBase) = false ∧
        document.docId ∉ seen ∧ ∀ field ∈ document.fields, isBlank field.1 = false := by
  unfold validateDocument
  split
  · rename_i known
    simp only [reduceCtorEq, false_iff, not_and]
    intro low dead fresh
    rcases known with below | live | old
    · omega
    · rw [dead] at live
      cases live
    · exact absurd old fresh
  · rename_i known
    rw [not_or, not_or, not_lt, Bool.not_eq_true] at known
    split
    · rename_i blank
      simp only [reduceCtorEq, false_iff, not_and]
      intro _ _ _ visible
      obtain ⟨field, member, found⟩ := List.any_eq_true.mp blank
      rw [visible field member] at found
      cases found
    · rename_i visible
      simp only [true_iff]
      exact ⟨known.1, known.2.1, known.2.2, by simpa using visible⟩

/-- Validation lets through what is new, above the base of the active segment and named. -/
theorem validateFrom_ok_iff (seen : List Nat) (documents : List Document) :
    index.validateFrom seen documents = .ok () ↔
      (∀ document ∈ documents, index.active.docBase ≤ document.docId ∧
        index.active.liveDocs.contains (document.docId - index.active.docBase) = false ∧
        document.docId ∉ seen ∧ ∀ field ∈ document.fields, isBlank field.1 = false) ∧
      (documents.map Document.docId).Nodup := by
  induction documents generalizing seen with
  | nil => simp [validateFrom]
  | cons document rest ih =>
    rw [validateFrom, List.forall_mem_cons, ← validateDocument_ok_iff, List.map_cons, List.nodup_cons]
    cases one : index.validateDocument seen document with
    | error error => simp [bind, Except.bind]
    | ok _ =>
      simp only [bind, Except.bind, ih, List.mem_cons, not_or, List.mem_map]
      constructor
      · rintro ⟨all, distinct⟩
        refine ⟨⟨trivial, fun other member => ?_⟩, ?_, distinct⟩
        · obtain ⟨low, dead, ⟨_, fresh⟩, visible⟩ := all other member
          exact ⟨low, dead, fresh, visible⟩
        · rintro ⟨other, member, same⟩
          exact (all other member).2.2.1.1 same
      · rintro ⟨⟨_, all⟩, apart, distinct⟩
        refine ⟨fun other member => ?_, distinct⟩
        obtain ⟨low, dead, fresh, visible⟩ := all other member
        exact ⟨low, dead, ⟨fun same => apart ⟨other, member, same⟩, fresh⟩, visible⟩

theorem analyzeDocument_docId (unicode : Unicode) (mapping : IndexMapping) (document : Document) :
    (analyzeDocument unicode mapping document).docId = document.docId := by
  have fold : ∀ (fields : List (String × String)) (analyzed : AnalyzedDocument),
      (fields.foldl (fun analyzed entry => analyzeField unicode mapping analyzed entry.1 entry.2)
        analyzed).docId = analyzed.docId := by
    intro fields
    induction fields with
    | nil => exact fun _ => rfl
    | cons field rest ih =>
      intro analyzed
      rw [List.foldl_cons, ih]
      rfl
  exact fold _ _

theorem addDocuments_ranged (ranged : index.Ranged) {documents : List Document}
    {mapping : IndexMapping} {deferred : Bool} {files : Files} {next : DocumentIndex Digest}
    (below : ∀ document ∈ documents, document.docId < 2 ^ 32 - 1)
    (added : index.addDocuments settings documents mapping deferred files = (.ok (), next)) :
    next.Ranged ∧
      (∀ bound, index.nextDocIdHint ≤ bound → (∀ document ∈ documents, document.docId < bound) →
        next.nextDocIdHint ≤ bound) ∧
      ∀ docId, next.Holds docId ↔ (∃ document ∈ documents, document.docId = docId) ∨
        index.Holds docId := by
  unfold addDocuments at added
  split at added
  · cases added
  · rename_i valid
    split at added
    · cases added
    · rename_i middle merged
      obtain ⟨done, capped, held⟩ := mergeAll_ranged ranged
        (fun document member => by
          obtain ⟨raw, raw_member, rfl⟩ := List.mem_map.mp member
          rw [analyzeDocument_docId]
          exact (((validateFrom_ok_iff [] documents).mp valid).1 raw raw_member).1)
        (fun document member => by
          obtain ⟨raw, raw_member, rfl⟩ := List.mem_map.mp member
          rw [analyzeDocument_docId]
          exact below raw raw_member) merged
      have listed : ∀ docId, middle.Holds docId ↔
          (∃ document ∈ documents, document.docId = docId) ∨ index.Holds docId := by
        intro docId
        rw [held]
        simp only [List.mem_map, exists_exists_and_eq_and, analyzeDocument_docId]
      have under : ∀ bound, index.nextDocIdHint ≤ bound →
          (∀ document ∈ documents, document.docId < bound) → middle.nextDocIdHint ≤ bound := by
        intro bound under inside
        refine capped bound under fun document member => ?_
        obtain ⟨raw, raw_member, rfl⟩ := List.mem_map.mp member
        rw [analyzeDocument_docId]
        exact inside raw raw_member
      have unmoved : Unmoved middle next := by
        split at added
        · cases added
          exact done.of_same _ rfl rfl rfl rfl
        · cases added
          exact done.of_same _ rfl rfl rfl rfl
      refine ⟨unmoved.ranged, ?_, fun docId => (unmoved.holds docId).trans (listed docId)⟩
      rw [unmoved.hint]
      exact under

end Adding

section Sealing

theorem materializeTerms_ranged (ranged : index.Ranged) (files : Files) :
    Unmoved index (index.materializeTerms settings files) := by
  unfold materializeTerms
  split
  · exact ranged.unmoved
  · exact ranged.of_same _ rfl rfl rfl rfl

theorem materializeActiveSegmentTerms_ranged (ranged : index.Ranged) (files : Files) :
    Unmoved index (index.materializeActiveSegmentTerms settings files) :=
  ranged.of_same _ rfl rfl rfl rfl

/-- Sealing closes the range of the active segment and opens the next one behind it. -/
theorem startNewActiveSegmentIfNonempty_ranged (ranged : index.Ranged) :
    Unmoved index index.startNewActiveSegmentIfNonempty := by
  unfold startNewActiveSegmentIfNonempty
  split
  · exact ranged.unmoved
  · rename_i nonempty
    rw [not_le] at nonempty
    refine ⟨⟨?_, ?_, ?_, ?_, ?_⟩, rfl, ?_⟩
    · exact ranged.tiles.append (.singleton rfl (by dsimp only [Segment.new]; omega))
    · intro segment member
      rcases List.mem_append.mp member with member | member
      · exact ranged.sealed segment member
      · obtain rfl := List.mem_singleton.mp member
        refine ⟨by dsimp only; omega, ?_⟩
        intro docId live
        have := ranged.active docId live
        dsimp only
        omega
    · intro docId live
      simp [Segment.new] at live
    · exact le_refl _
    · exact ranged.bounded
    · intro docId
      simp only [Holds, segments, List.mem_append, List.mem_singleton, or_and_right, exists_or,
        exists_eq_left, Segment.new, LiveDocsBitset.contains_default, Bool.false_eq_true, and_false,
        or_false]

theorem sealActive_ranged (ranged : index.Ranged) (files : Files) :
    Unmoved index (index.sealActive settings files) := by
  have materialized := @materializeActiveSegmentTerms_ranged _ settings _ ranged files
  exact materialized.trans (startNewActiveSegmentIfNonempty_ranged materialized.ranged)

theorem contains_foldl_insert (f : Nat → Nat) (docIds : List Nat) (live : LiveDocsBitset) (x : Nat) :
    (docIds.foldl (fun live docId => live.insert (f docId)) live).contains x = true ↔
      (∃ docId ∈ docIds, f docId = x) ∨ live.contains x = true := by
  induction docIds generalizing live with
  | nil => simp
  | cons docId rest ih =>
    rw [List.foldl_cons, ih, LiveDocsBitset.contains_insert, Bool.or_eq_true, beq_iff_eq,
      List.exists_mem_cons_iff, @eq_comm _ x, ← or_assoc, or_comm (a := ∃ other ∈ rest, _)]

theorem subU32_of_le {a b : Nat} (below : b ≤ a) (small : a < 2 ^ 32) : subU32 a b = a - b := by
  unfold subU32
  omega

theorem contains_mergeLiveDocs {run : List (Segment Digest)} {first last : Nat}
    (tiles : Tiles Segment.docBase Segment.docCount first last run) (bounded : last < 2 ^ 32)
    (live : ∀ segment ∈ run, ∀ docId, segment.liveDocs.contains docId = true →
      docId < segment.docCount) (docId : Nat) :
    (mergeLiveDocs run first).contains docId = true ↔
      ∃ segment ∈ run, segment.docBase ≤ first + docId ∧
        segment.liveDocs.contains (first + docId - segment.docBase) = true := by
  have fold : ∀ (segments : List (Segment Digest)) (start : LiveDocsBitset),
      (segments.foldl (fun merged segment => segment.liveDocs.iter.foldl
        (fun merged d => merged.insert ((d + subU32 segment.docBase first) % 2 ^ 32)) merged)
        start).contains docId = true ↔
      (∃ segment ∈ segments, ∃ d, segment.liveDocs.contains d = true ∧
        (d + subU32 segment.docBase first) % 2 ^ 32 = docId) ∨ start.contains docId = true := by
    intro segments
    induction segments with
    | nil => simp
    | cons segment rest ih =>
      intro start
      rw [List.foldl_cons, ih, contains_foldl_insert, List.exists_mem_cons_iff, ← or_assoc,
        or_comm (a := ∃ other ∈ rest, _)]
      simp only [LiveDocsBitset.mem_iter]
  rw [mergeLiveDocs, fold]
  simp only [LiveDocsBitset.contains_default, Bool.false_eq_true, or_false]
  refine exists_congr fun segment => and_congr_right fun member => ?_
  have inside := tiles.inside segment member
  have shift := @subU32_of_le segment.docBase first inside.1 (by omega)
  rw [shift]
  constructor
  · rintro ⟨d, contains, placed⟩
    have := live segment member d contains
    rw [Nat.mod_eq_of_lt (by omega)] at placed
    refine ⟨by omega, ?_⟩
    rw [(by omega : first + docId - segment.docBase = d)]
    exact contains
  · rintro ⟨low, contains⟩
    have := live segment member _ contains
    exact ⟨_, contains, by rw [Nat.mod_eq_of_lt (by omega)]; omega⟩

/-- What is merged covers the range of its run and has its live documents. -/
theorem mergedSegment_spec {run : List (Segment Digest)} {budget : Nat}
    {termsFile subfieldFile : Device} {merged : Segment Digest}
    (built : mergedSegment settings run budget termsFile subfieldFile = some merged) :
    merged.docBase = (run.head?.map Segment.docBase).getD 0 ∧
      merged.docCount = (run.map Segment.docCount).sum % 2 ^ 32 ∧
      merged.liveDocs = mergeLiveDocs run merged.docBase := by
  simp only [mergedSegment, Option.bind_eq_bind, Option.bind_eq_some_iff, Option.pure_def] at built
  obtain ⟨terms, _, result⟩ := built
  cases result
  exact ⟨rfl, rfl, rfl⟩

theorem mergedSegment_range {run : List (Segment Digest)} {low high budget : Nat}
    {termsFile subfieldFile : Device} {segment : Segment Digest}
    (tiles : Tiles Segment.docBase Segment.docCount low high run) (bounded : high < 2 ^ 32)
    (nonempty : run ≠ [])
    (built : mergedSegment settings run budget termsFile subfieldFile = some segment) :
    segment.docBase = low ∧ segment.docCount = high - low := by
  obtain ⟨base, count, _⟩ := mergedSegment_spec built
  have total := tiles.total
  constructor
  · cases run with
    | nil => exact absurd rfl nonempty
    | cons head rest =>
      rw [base]
      exact tiles.1
  · rw [count, Nat.mod_eq_of_lt (by omega)]
    omega

/-- A merge replaces a run by a segment for the same documents. -/
theorem mergeSegmentsRun_ranged (ranged : index.Ranged) {merged : DocumentIndex Digest}
    {start ending : Nat} {termsFile subfieldFile : Device} (proper : start < ending)
    (inside : ending ≤ index.sealedSegments.length)
    (produced : index.mergeSegmentsRun settings start ending termsFile subfieldFile = some merged) :
    Unmoved index merged := by
  obtain ⟨before, run, after, segment, cut, built, rfl⟩ :=
    mergeSegmentsRun_spec proper inside produced
  have live := (mergedSegment_spec built).2.2
  have tiles := ranged.tiles
  rw [cut.sealed] at tiles
  obtain ⟨high, tiles, tiles_after⟩ := tiles_append.mp tiles
  obtain ⟨low, tiles_before, tiles_run⟩ := tiles_append.mp tiles
  have bounded := ranged.bounded
  have hint := ranged.hint
  have below := tiles_after.le
  have under := tiles_run.le
  obtain ⟨first, size⟩ := mergedSegment_range tiles_run (by omega) cut.nonempty built
  have members : ∀ other ∈ run, other ∈ index.sealedSegments := by
    intro other member
    rw [cut.sealed]
    exact List.mem_append_left _ (List.mem_append_right _ member)
  have contains := contains_mergeLiveDocs tiles_run (by omega)
    fun other member => (ranged.sealed other (members other member)).2
  rw [first] at live
  refine ⟨⟨?_, ?_, ranged.active, hint, bounded⟩, rfl, ?_⟩
  · exact (tiles_before.append (.singleton first (by omega))).append tiles_after
  · intro other member
    rcases List.mem_append.mp member with member | member
    · rcases List.mem_append.mp member with member | member
      · exact ranged.sealed other (by
          rw [cut.sealed]
          exact List.mem_append_left _ (List.mem_append_left _ member))
      · obtain rfl := List.mem_singleton.mp member
        constructor
        · cases shape : run with
          | nil => exact absurd shape cut.nonempty
          | cons head rest =>
            have positive := (ranged.sealed head (members head (by rw [shape]; exact List.mem_cons_self))).1
            rw [shape] at tiles_run
            have := tiles_run.2.le
            omega
        · intro docId held
          rw [live, contains] at held
          obtain ⟨other', member', under, held⟩ := held
          have := (ranged.sealed other' (members other' member')).2 _ held
          have := (tiles_run.inside other' member').2
          omega
    · exact ranged.sealed other (by
        rw [cut.sealed]
        exact List.mem_append_right _ member)
  · intro docId
    have replaced : (segment.docBase ≤ docId ∧
        segment.liveDocs.contains (docId - segment.docBase) = true) ↔
        ∃ other ∈ run, other.docBase ≤ docId ∧
          other.liveDocs.contains (docId - other.docBase) = true := by
      rw [first, live, contains]
      constructor
      · rintro ⟨under, other, member, held⟩
        rw [Nat.add_sub_cancel' under] at held
        exact ⟨other, member, held⟩
      · rintro ⟨other, member, held⟩
        have := (tiles_run.inside other member).1
        have under : low ≤ docId := this.trans held.1
        refine ⟨under, other, member, ?_⟩
        rw [Nat.add_sub_cancel' under]
        exact held
    simp only [Holds, segments, cut.sealed, List.mem_append, List.mem_singleton, or_and_right,
      exists_or, exists_eq_left, replaced]

theorem sealing_ranged (ranged : index.Ranged) {last : DocumentIndex Digest} {files : Files}
    {memoryBytes : Nat}
    (finished : index.maybeFlushByBudget settings memoryBytes files = some last ∨
      index.materializeTermsAndFinalizePostings settings files = some last) :
    Unmoved index last := by
  rcases sealing_cases finished with rfl | ⟨_, rfl⟩ | ⟨_, finished⟩
  · exact ranged.unmoved
  · exact materializeActiveSegmentTerms_ranged ranged files
  · refine maybeMergeAfterSeal_rule (P := Unmoved index) ?_ (sealActive_ranged ranged files) finished
    intro one merged start ending termsFile subfieldFile unmoved proper inside produced
    exact unmoved.trans (mergeSegmentsRun_ranged unmoved.ranged proper inside produced)

end Sealing

end DocumentIndex

end Surch.Index
