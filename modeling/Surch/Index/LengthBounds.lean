import Surch.Index.Quantization
import Surch.Index.Ranges

/-! `min_doc_len` through a run: the smallest length kept of a field is below every length that is read
back, unless the byte of a recorded length wraps to zero. -/
namespace Surch.Index
open Surch.Lib Surch.Postings

namespace FieldLengthStats

/- The minimum is below the length of every byte that stands for one. -/
def Bounded (stats : FieldLengthStats) : Prop :=
  ∀ byte ∈ stats.docLenDense, byte ≠ 0 → 0 < stats.minDocLen ∧ stats.minDocLen ≤ byte4ToInt byte

theorem byte4ToInt_pos {byte : Nat} (recorded : byte ≠ 0) : 0 < byte4ToInt byte := by
  unfold byte4ToInt
  split
  · exact Nat.pos_of_ne_zero recorded
  · simp only [numFreeValues]
    omega

theorem default_bounded : default.Bounded := fun _ member => nomatch member

theorem scanMin_spec {docLenDense : List Nat} {byte : Nat} (member : byte ∈ docLenDense)
    (recorded : byte ≠ 0) : 0 < scanMin docLenDense ∧ scanMin docLenDense ≤ byte4ToInt byte := by
  have positive : ∀ length ∈ (docLenDense.filter (0 < ·)).map byte4ToInt, 0 < length := by
    intro length inside
    obtain ⟨other, found, rfl⟩ := List.mem_map.mp inside
    exact byte4ToInt_pos (Nat.pos_iff_ne_zero.mp (of_decide_eq_true (List.mem_filter.mp found).2))
  have here : byte4ToInt byte ∈ (docLenDense.filter (0 < ·)).map byte4ToInt :=
    List.mem_map_of_mem (List.mem_filter.mpr ⟨member, decide_eq_true (Nat.pos_of_ne_zero recorded)⟩)
  unfold scanMin
  cases least : ((docLenDense.filter (0 < ·)).map byte4ToInt).min? with
  | none =>
    rw [List.min?_eq_none_iff.mp least] at here
    cases here
  | some length =>
    obtain ⟨inside, below⟩ := List.min?_eq_some_iff.mp least
    exact ⟨positive length inside, below _ here⟩

theorem recordDocLen_bounded {stats : FieldLengthStats} (bounded : stats.Bounded) (docId docLen : Nat)
    {normsEnabled : Bool} (encodes : normsEnabled = true → docLen ≠ 0 → encodedLen docLen ≠ 0) :
    (stats.recordDocLen docId docLen normsEnabled).Bounded := by
  by_cases empty : docLen = 0
  · rw [recordDocLen, if_pos empty]
    exact bounded
  · by_cases enabled : normsEnabled = true
    · subst enabled
      have recorded := encodes rfl empty
      have positive := byte4ToInt_pos recorded
      -- whether the scan is made depends on the byte that was there before
      have least : ∃ rescans : Prop, ∃ _ : Decidable rescans,
          (stats.recordDocLen docId docLen true).minDocLen =
            if stats.minDocLen = 0 ∨ byte4ToInt (encodedLen docLen) < stats.minDocLen then
              byte4ToInt (encodedLen docLen)
            else if rescans then scanMin (writeAt 0 stats.docLenDense docId (encodedLen docLen))
            else stats.minDocLen := by
        rw [recordDocLen, if_neg empty, if_neg (by simp)]
        exact ⟨_, _, rfl⟩
      have dense : (stats.recordDocLen docId docLen true).docLenDense =
          writeAt 0 stats.docLenDense docId (encodedLen docLen) := by
        rw [recordDocLen, if_neg empty, if_neg (by simp)]
      obtain ⟨rescans, _, least⟩ := least
      intro byte member present
      rw [dense] at member
      rw [least]
      have origin := mem_writeAt member
      split
      · rename_i lower
        refine ⟨positive, ?_⟩
        rcases origin with old | absent | rfl
        · have kept := bounded byte old present
          omega
        · exact absurd absent present
        · exact le_rfl
      · rename_i higher
        split
        · exact scanMin_spec member present
        · rcases origin with old | absent | rfl
          · exact bounded byte old present
          · exact absurd absent present
          · omega
    · rw [recordDocLen, if_neg empty, if_pos (by simpa using enabled)]
      exact bounded

theorem joinMin_le {minDocLen : Nat} {segmentMin : Option Nat} {bound : Nat}
    (positive : ∀ least ∈ segmentMin, 0 < least)
    (below : (0 < minDocLen ∧ minDocLen ≤ bound) ∨ ∃ least ∈ segmentMin, least ≤ bound) :
    0 < joinMin minDocLen segmentMin ∧ joinMin minDocLen segmentMin ≤ bound := by
  cases segmentMin with
  | none =>
    rcases below with kept | ⟨least, none, _⟩
    · exact kept
    · cases none
  | some least =>
    have here := positive least rfl
    have joined : joinMin minDocLen (some least) =
        if minDocLen = 0 then least else min minDocLen least := rfl
    rw [joined]
    rcases below with kept | ⟨other, same, small⟩
    · rw [if_neg (by omega)]
      omega
    · cases same
      split <;> omega

theorem minDocLen?_pos (stats : FieldLengthStats) : ∀ least ∈ stats.minDocLen?, 0 < least := by
  intro least found
  unfold minDocLen? at found
  split at found
  · rename_i positive
    cases found
    exact positive
  · cases found

theorem foldl_joinMin_le {found : List FieldLengthStats} {start bound : Nat}
    (below : (0 < start ∧ start ≤ bound) ∨
      ∃ stats ∈ found, 0 < stats.minDocLen ∧ stats.minDocLen ≤ bound) :
    0 < (found.map minDocLen?).foldl joinMin start ∧
      (found.map minDocLen?).foldl joinMin start ≤ bound := by
  induction found generalizing start with
  | nil =>
    rcases below with kept | ⟨stats, none, _⟩
    · exact kept
    · cases none
  | cons stats rest ih =>
    rw [List.map_cons, List.foldl_cons]
    apply ih
    rcases below with kept | ⟨other, member, small⟩
    · exact .inl (joinMin_le stats.minDocLen?_pos (.inl kept))
    · rcases List.mem_cons.mp member with rfl | later
      · refine .inl (joinMin_le other.minDocLen?_pos (.inr ⟨other.minDocLen, ?_, small.2⟩))
        rw [minDocLen?, if_pos small.1]
        rfl
      · exact .inr ⟨other, later, small⟩

end FieldLengthStats

section Merging

variable {Digest : Type}

def Segment.LengthsBounded (segment : Segment Digest) : Prop :=
  ∀ field stats, segment.fieldStats.get? field = some stats → stats.Bounded

theorem mergeStats_bounded {run : List (Segment Digest)}
    (bounded : ∀ segment ∈ run, segment.LengthsBounded) (field : String) :
    (mergeStats run field).Bounded := by
  refine List.foldlRecOn run _ FieldLengthStats.default_bounded fun merged kept segment inside => ?_
  cases found : segment.fieldStats.get? field with
  | none =>
    intro byte member present
    rcases List.mem_append.mp member with old | padding
    · exact kept byte old present
    · exact absurd (List.eq_of_mem_replicate padding) present
  | some stats =>
    have here := bounded segment inside field stats found
    intro byte member present
    apply FieldLengthStats.joinMin_le stats.minDocLen?_pos
    rcases List.mem_append.mp member with member | padding
    · rcases List.mem_append.mp member with old | new
      · exact .inl (kept byte old present)
      · obtain ⟨positive, small⟩ := here byte new present
        refine .inr ⟨stats.minDocLen, ?_, small⟩
        rw [FieldLengthStats.minDocLen?, if_pos positive]
        rfl
    · exact absurd (List.eq_of_mem_replicate padding) present

end Merging

namespace DocumentIndex

variable {Digest : Type} {settings : Settings Digest} {index : DocumentIndex Digest}

def LengthsBounded (index : DocumentIndex Digest) : Prop :=
  ∀ segment ∈ index.segments, segment.LengthsBounded

def Encodes (document : AnalyzedDocument) : Prop :=
  ∀ entry ∈ document.fieldLengths.entries, entry.2.2 = true → entry.2.1 ≠ 0 →
    FieldLengthStats.encodedLen entry.2.1 ≠ 0

theorem new_lengthsBounded : (new : DocumentIndex Digest).LengthsBounded := by
  intro segment member field stats found
  rw [List.mem_singleton.mp member] at found
  cases found

theorem LengthsBounded.of_segments {next : DocumentIndex Digest} (bounded : index.LengthsBounded)
    (same : ∀ segment ∈ next.segments, ∃ old ∈ index.segments, segment.fieldStats = old.fieldStats) :
    next.LengthsBounded := by
  intro segment member field stats found
  obtain ⟨old, inside, equal⟩ := same segment member
  exact bounded old inside field stats (equal ▸ found)

theorem mergeAnalyzed_lengthsBounded (bounded : index.LengthsBounded) {document : AnalyzedDocument}
    (encodes : Encodes document) : (index.mergeAnalyzed document).2.LengthsBounded := by
  unfold mergeAnalyzed
  dsimp only
  split
  · exact bounded.of_segments fun segment member => by
      rcases List.mem_append.mp member with before | last
      · exact ⟨segment, List.mem_append_left _ before, rfl⟩
      · rw [List.mem_singleton.mp last]
        exact ⟨index.active, List.mem_append_right _ (List.mem_singleton_self _), rfl⟩
  · intro segment member
    rcases List.mem_append.mp member with before | last
    · exact bounded segment (List.mem_append_left _ before)
    · rw [List.mem_singleton.mp last]
      have start : index.active.LengthsBounded :=
        bounded index.active (List.mem_append_right _ (List.mem_singleton_self _))
      have each : ∀ (entries : List (String × Nat × Bool)) (docId : Nat)
          (stats : SortedMap String FieldLengthStats),
          (∀ entry ∈ entries, entry.2.2 = true → entry.2.1 ≠ 0 →
            FieldLengthStats.encodedLen entry.2.1 ≠ 0) →
          (∀ field lengths, stats.get? field = some lengths → lengths.Bounded) →
          ∀ field lengths, (entries.foldl (fun stats entry =>
            stats.upsert entry.1 fun lengths =>
              (lengths.getD .default).recordDocLen docId entry.2.1 entry.2.2) stats).get? field =
            some lengths → lengths.Bounded := by
        intro entries docId
        induction entries with
        | nil => exact fun stats _ kept => kept
        | cons entry rest ih =>
          intro stats encodes kept
          refine ih _ (fun other inside => encodes other (List.mem_cons_of_mem _ inside)) ?_
          intro field lengths found
          dsimp only at found
          rw [SortedMap.get?_upsert] at found
          split at found
          · cases found
            refine FieldLengthStats.recordDocLen_bounded ?_ _ _ (encodes entry List.mem_cons_self)
            cases there : stats.get? entry.1 with
            | none => exact FieldLengthStats.default_bounded
            | some lengths => exact kept entry.1 lengths there
          · exact kept field lengths found
      exact each _ _ _ encodes start

theorem mergeAll_lengthsBounded (bounded : index.LengthsBounded) {documents : List AnalyzedDocument}
    (encodes : ∀ document ∈ documents, Encodes document) :
    (index.mergeAll documents).2.LengthsBounded := by
  induction documents generalizing index with
  | nil => exact bounded
  | cons document rest ih =>
    have first := mergeAnalyzed_lengthsBounded bounded (encodes document List.mem_cons_self)
    rw [mergeAll]
    split
    · rename_i error next merged
      rwa [merged] at first
    · rename_i next merged
      rw [merged] at first
      exact ih first fun other member => encodes other (List.mem_cons_of_mem _ member)

/-- The lengths of a batch are recorded one document after the other. -/
theorem mergeAll_fieldStats {next : DocumentIndex Digest} {documents : List AnalyzedDocument}
    (merged : index.mergeAll documents = (.ok (), next)) :
    next.active.fieldStats = documents.foldl
      (fun stats document => document.fieldLengths.entries.foldl
        (fun stats (field, docLen, normsEnabled) =>
          stats.upsert field fun lengths =>
            (lengths.getD .default).recordDocLen (document.docId - index.active.docBase) docLen
              normsEnabled)
        stats)
      index.active.fieldStats := by
  induction documents generalizing index with
  | nil =>
    cases merged
    rfl
  | cons document rest ih =>
    rw [mergeAll] at merged
    split at merged
    · cases merged
    · rename_i middle first
      have base := (index.mergeAnalyzed_kept document).docBase
      rw [first] at base
      obtain ⟨builder, recorded, rfl⟩ := mergeAnalyzed_ok first
      rw [ih merged, List.foldl_cons, base]
      rfl

/- The lengths of what is added have bytes that are not zero. -/
def StepEncodes (settings : Settings Digest) : Step → Prop
  | .addDocuments documents mapping _ _ => ∀ document ∈ documents,
    Encodes (analyzeDocument settings.unicode mapping document)
  | _ => True

theorem addDocuments_lengthsBounded (bounded : index.LengthsBounded) {documents : List Document}
    {mapping : IndexMapping} {deferred : Bool} {files : Files}
    (encodes : ∀ document ∈ documents, Encodes (analyzeDocument settings.unicode mapping document)) :
    (index.addDocuments settings documents mapping deferred files).2.LengthsBounded := by
  unfold addDocuments
  split
  · exact bounded
  · have merged := @mergeAll_lengthsBounded _ index bounded
      (documents.map (analyzeDocument settings.unicode mapping))
      (List.forall_mem_map.mpr encodes)
    split
    · rename_i error next result
      rwa [result] at merged
    · rename_i next result
      rw [result] at merged
      split
      · exact merged
      · exact merged.of_segments fun segment member => by
          rcases List.mem_append.mp member with before | last
          · exact ⟨segment, List.mem_append_left _ before, rfl⟩
          · rw [List.mem_singleton.mp last]
            exact ⟨next.active, List.mem_append_right _ (List.mem_singleton_self _), rfl⟩

theorem mergeSegmentsRun_lengthsBounded (bounded : index.LengthsBounded) {merged : DocumentIndex Digest}
    {start ending : Nat} {termsFile subfieldFile : Device} (proper : start < ending)
    (inside : ending ≤ index.sealedSegments.length)
    (produced : index.mergeSegmentsRun settings start ending termsFile subfieldFile = some merged) :
    merged.LengthsBounded := by
  obtain ⟨before, run, after, segment, cut, built, rfl⟩ := mergeSegmentsRun_spec proper inside produced
  have stats : segment.fieldStats = mergeFieldStats run := by
    simp only [mergedSegment, Option.bind_eq_bind, Option.bind_eq_some_iff, Option.pure_def] at built
    obtain ⟨terms, _, result⟩ := built
    cases result
    rfl
  have sealed : ∀ other ∈ before ++ run ++ after, other.LengthsBounded := by
    intro other member
    refine bounded other (List.mem_append_left _ ?_)
    rw [cut.sealed]
    exact member
  intro other member
  simp only [segments, List.mem_append, List.mem_singleton] at member
  rcases member with ((early | rfl) | late) | rfl
  · exact sealed other (by simp [early])
  · intro field lengths found
    rw [stats, mergeFieldStats, SortedMap.get?_ofKeys] at found
    split at found
    · cases found
      exact mergeStats_bounded (fun source member => sealed source (by simp [member])) field
    · cases found
  · exact sealed other (by simp [late])
  · exact bounded index.active (List.mem_append_right _ (List.mem_singleton_self _))

theorem materializeActiveSegmentTerms_lengthsBounded (bounded : index.LengthsBounded) (files : Files) :
    (index.materializeActiveSegmentTerms settings files).LengthsBounded :=
  bounded.of_segments fun segment member => by
    rcases List.mem_append.mp member with before | last
    · exact ⟨segment, List.mem_append_left _ before, rfl⟩
    · rw [List.mem_singleton.mp last]
      exact ⟨index.active, List.mem_append_right _ (List.mem_singleton_self _), rfl⟩

theorem sealActive_lengthsBounded (bounded : index.LengthsBounded) (files : Files) :
    (index.sealActive settings files).LengthsBounded := by
  have materialized := @materializeActiveSegmentTerms_lengthsBounded _ settings index bounded files
  unfold sealActive startNewActiveSegmentIfNonempty
  split
  · exact materialized
  · intro segment member
    simp only [segments, List.mem_append, List.mem_singleton] at member
    rcases member with (early | rfl) | rfl
    · exact materialized segment (List.mem_append_left _ early)
    · exact materialized (index.materializeActiveSegmentTerms settings files).active
        (List.mem_append_right _ (List.mem_singleton_self _))
    · intro field lengths found
      cases found

/-- A step that records no length whose byte is zero keeps the minima below all lengths. -/
theorem step_lengthsBounded (bounded : index.LengthsBounded) {action : Step}
    {next : DocumentIndex Digest} (encodes : StepEncodes settings action)
    (stepped : index.step settings action = some next) : next.LengthsBounded := by
  have sealing : ∀ {last : DocumentIndex Digest} {files : Files} {memoryBytes : Nat},
      (index.maybeFlushByBudget settings memoryBytes files = some last ∨
        index.materializeTermsAndFinalizePostings settings files = some last) →
      last.LengthsBounded := by
    intro last files memoryBytes finished
    rcases sealing_cases finished with rfl | ⟨_, rfl⟩ | ⟨_, merged⟩
    · exact bounded
    · exact materializeActiveSegmentTerms_lengthsBounded bounded files
    · exact maybeMergeAfterSeal_rule
        (fun index merged start ending termsFile subfieldFile kept proper inside produced =>
          mergeSegmentsRun_lengthsBounded kept proper inside produced)
        (sealActive_lengthsBounded bounded files) merged
  cases action with
  | addDocuments documents mapping deferred files =>
    cases stepped
    exact addDocuments_lengthsBounded bounded encodes
  | materializeTerms files =>
    cases stepped
    unfold materializeTerms
    split
    · exact bounded
    · exact bounded.of_segments fun segment member => by
        rcases List.mem_append.mp member with before | last
        · exact ⟨segment, List.mem_append_left _ before, rfl⟩
        · rw [List.mem_singleton.mp last]
          exact ⟨index.active, List.mem_append_right _ (List.mem_singleton_self _), rfl⟩
  | maybeFlushByBudget memoryBytes files => exact sealing (.inl stepped)
  | materializeTermsAndFinalizePostings files => exact @sealing next files 0 (.inr stepped)
  | clear =>
    cases stepped
    rw [clear_eq]
    exact new_lengthsBounded

theorem run_lengthsBounded {steps : List Step} {last : DocumentIndex Digest}
    (bounded : index.LengthsBounded) (encodes : ∀ action ∈ steps, StepEncodes settings action)
    (finished : index.run settings steps = some last) : last.LengthsBounded := by
  induction steps generalizing index with
  | nil =>
    cases finished
    exact bounded
  | cons action rest ih =>
    obtain ⟨next, stepped, later⟩ := Option.bind_eq_some_iff.mp finished
    exact ih (step_lengthsBounded bounded (encodes action List.mem_cons_self) stepped)
      (fun other member => encodes other (List.mem_cons_of_mem _ member)) later

/-- The minimum over the segments is below every length that is read. -/
theorem minDocLen_le_docLen (bounded : index.LengthsBounded) {field : String} {docId docLen : Nat}
    (read : index.docLen field docId = some docLen) {aggregated : AggregatedFieldStats}
    (found : index.fieldStatsAggregated field = some aggregated) :
    0 < aggregated.minDocLen ∧ aggregated.minDocLen ≤ docLen := by
  have owned : ∃ segment ∈ index.segments, ∃ stats, segment.fieldStats.get? field = some stats ∧
      ∃ byte ∈ stats.docLenDense, byte ≠ 0 ∧ docLen = byte4ToInt byte := by
    unfold DocumentIndex.docLen at read
    split at read
    · obtain ⟨stats, there, length⟩ := Option.bind_eq_some_iff.mp read
      obtain ⟨byte, kept, rfl⟩ := Option.map_eq_some_iff.mp length
      obtain ⟨here, recorded⟩ := Option.filter_eq_some_iff.mp kept
      exact ⟨index.active, List.mem_append_right _ (List.mem_singleton_self _), stats, there, byte,
        List.mem_of_getElem? here, Nat.pos_iff_ne_zero.mp (of_decide_eq_true recorded), rfl⟩
    · obtain ⟨⟨docBase, stats⟩, owner, read⟩ := Option.bind_eq_some_iff.mp read
      have listed := List.takeWhile_subset _ (List.mem_of_getLast? owner)
      obtain ⟨segment, member, there⟩ := List.mem_filterMap.mp listed
      obtain ⟨_, found, same⟩ := Option.map_eq_some_iff.mp there
      cases same
      obtain ⟨byte, here, read⟩ := Option.bind_eq_some_iff.mp read
      split at read
      · rename_i recorded
        cases read
        exact ⟨segment, member, stats, found, byte, List.mem_of_getElem? here, by omega,
          if_neg (by omega)⟩
      · cases read
  obtain ⟨segment, member, stats, there, byte, inside, present, rfl⟩ := owned
  have small := bounded segment member field stats there byte inside present
  unfold fieldStatsAggregated at found
  dsimp only at found
  split at found
  · cases found
  · cases found
    exact FieldLengthStats.foldl_joinMin_le
      (.inr ⟨stats, List.mem_filterMap.mpr ⟨segment, member, there⟩, small⟩)

end DocumentIndex

end Surch.Index
