import Surch.Api.SingleTermExact
import Surch.Index.LengthBounds

/-! The streamed best documents of a term over the indices that runs build: they are exact unless a
document is shorter than the smallest length that is kept. -/
namespace Surch.Api
open Surch.Lib Surch.Codec Surch.Postings Surch.Index

section Spec

def FieldScoringStats.scoredPostings (stats : FieldScoringStats) (stored : List (Nat × Nat)) :
    List ScoredPosting :=
  stored.filterMap fun (docId, freq) =>
    if freq = 0 then none
    else
      (if stats.normsEnabled then (stats.docLen docId).filter (0 < ·) else some 1).map fun docLen =>
        ⟨docId, freq, docLen⟩

theorem FieldScoringStats.scoredPostings_ascending {stats : FieldScoringStats} {stored : List (Nat × Nat)}
    (ascending : (stored.map Prod.fst).Pairwise (· < ·)) :
    ((stats.scoredPostings stored).map ScoredPosting.docId).Pairwise (· < ·) := by
  rw [List.pairwise_map] at ascending ⊢
  refine List.Pairwise.filterMap _ (fun posting posting' less scored found scored' found' => ?_) ascending
  dsimp only at found found'
  split at found
  · cases found
  · split at found'
    · cases found'
    · obtain ⟨_, _, rfl⟩ := Option.map_eq_some_iff.mp found
      obtain ⟨_, _, rfl⟩ := Option.map_eq_some_iff.mp found'
      exact less

variable {Digest : Type} [DecidableEq Digest] (settings : Settings Digest) (mapping : IndexMapping)
  (index : DocumentIndex Digest) (field value : String)

def minDocLenBound (stats : FieldScoringStats) : Nat :=
  if stats.normsEnabled then (scoringMinDocLen mapping index field).getD 1 else 1

/- For every order of scores and every scorer that rates more of the term or a shorter document no
lower: the best of all scored documents, and the number of all documents. -/
def TopkExact : Prop :=
  ∀ (Score : Type) [LinearOrder Score] (newScorer : TermScorer Score),
    (∀ docCount docFreq avgDocLen, ∀ score ∈ newScorer docCount docFreq avgDocLen, MonotoneScore score) →
    ∀ limit top total,
      singleTermMatchTopkStreamed settings mapping index newScorer limit field value = some (top, total) →
      ∃ token stats, scoredToken settings mapping (field, value) = some token ∧
        fieldScoringStats mapping index field = some stats ∧
        total = (index.stored field token).length ∧
        (top = [] ∧ (limit = 0 ∨ index.stored field token = []) ∨
          ∃ score ∈ newScorer stats.docCount total stats.avgDocLen,
            top = (((stats.scoredPostings (index.stored field token)).map fun posting =>
              Ranked.of (score posting.freq posting.docLen) posting.docId).insertionSort (· ≤ ·)).take limit)

/- The walk is made, and a later document that could beat an earlier one is shorter than the smallest
length that is kept. -/
def Undercut : Prop :=
  isBlank field = false ∧ value.isEmpty = false ∧ ∃ token stats view,
    scoredToken settings mapping (field, value) = some token ∧
    fieldScoringStats mapping index field = some stats ∧
    index.segmentedPostingsChecked settings.hash field token = .ok (some view) ∧
    (index.stored field token).length ≤ stats.docCount ∧
    Undercuts (minDocLenBound mapping index field stats)
      (stats.scoredPostings (index.stored field token))

end Spec

section Runs

variable {Digest : Type} [DecidableEq Digest] {settings : Settings Digest} {mapping : IndexMapping}
  {index : DocumentIndex Digest} {groups : List (List Addition)} {field value token : String}

omit [DecidableEq Digest] in
theorem Stores.stored_ascending (stores : Stores settings index groups) (field token : String) :
    ((index.stored field token).map Prod.fst).Pairwise (· < ·) := by
  rw [← (stores.parts field token).1]
  exact postingsFor_ascending _ _ _

/-- What is read of a term that some segment has: all of its postings are visited. -/
theorem Stores.streamed (stores : Stores settings index groups) {view : SegmentedPostings}
    (opened : index.segmentedPostingsChecked settings.hash field token = .ok (some view)) :
    view.globalDf = (index.stored field token).length ∧
      ∀ {Score : Type} [LinearOrder Score] (stream : TermStream Score), ∃ top,
        stream.walkSegments view.perSegment ⟨[], .unset, 0, 0⟩ = some top ∧
          top.topn = ((index.stored field token).filterMap stream.scoredPosting).foldl
            stream.screened [] := by
  obtain ⟨each, total⟩ := segmentedPostingsChecked_spec stores.inverteds opened
  have whole := stores.flatMap_stored field token
  rw [(stores.parts field token).1] at whole
  rw [whole] at total
  refine ⟨total, fun stream => ⟨_, TermStream.walkSegments_eq each _, ?_⟩⟩
  rw [whole]
  exact (TermStream.foldl_visit TermStream.tracks_start _).2

theorem Stores.not_opened (stores : Stores settings index groups)
    (opened : index.segmentedPostingsChecked settings.hash field token = .ok none) :
    index.stored field token = [] := by
  have nothing := segmentedPostingsChecked_spec stores.inverteds opened
  rwa [stores.flatMap_stored field token, (stores.parts field token).1] at nothing

/-- A document that undercuts the bound is what it takes for an answer to be wrong. -/
theorem Stores.topkExact_iff (stores : Stores settings index groups) :
    TopkExact settings mapping index field value ↔ ¬Undercut settings mapping index field value := by
  constructor
  · rintro exact_answer ⟨named, given, token, stats, view, scored, known, opened, few, undercuts⟩
    obtain ⟨total, walks⟩ := Stores.streamed stores opened
    have nonempty : index.stored field token ≠ [] := by
      intro nothing
      obtain ⟨earlier, member, _⟩ := undercuts
      rw [nothing] at member
      cases member
    have some_docs := List.length_pos_iff.mpr nonempty
    obtain ⟨limit, score, positive, monotone, inexact⟩ := exists_inexact
      (FieldScoringStats.scoredPostings_ascending (Stores.stored_ascending stores field token)) undercuts
    let stream : TermStream Bool :=
      { limit
        score
        normsEnabled := stats.normsEnabled
        minDocLenBound := minDocLenBound mapping index field stats
        docLen := stats.docLen }
    obtain ⟨top, walked, collected⟩ := walks stream
    have answered : singleTermMatchTopkStreamed settings mapping index (fun _ _ _ => some score) limit
        field value = some (top.topn, view.globalDf) := by
      unfold singleTermMatchTopkStreamed
      rw [named, given]
      simp only [scored, known, opened]
      rw [if_neg (by simp), if_neg (by omega), if_neg positive, if_neg (by omega)]
      exact congrArg (Option.map fun top => (top.topn, view.globalDf)) walked
    obtain ⟨token', stats', scored', known', _, result⟩ := exact_answer Bool (fun _ _ _ => some score)
      (fun _ _ _ other same => Option.some.inj same ▸ monotone) limit _ _ answered
    cases scored.symm.trans scored'
    cases known.symm.trans known'
    rcases result with ⟨_, nothing⟩ | ⟨other, same, best⟩
    · rcases nothing with zero | nothing
      · exact positive zero
      · exact nonempty nothing
    · cases same
      refine inexact stream rfl rfl rfl ?_
      rw [TopN.collect_eq]
      exact collected.symm.trans best
  · intro safe Score _ newScorer monotone limit top total answered
    unfold singleTermMatchTopkStreamed at answered
    split at answered
    · cases answered
    rename_i given
    rw [Bool.or_eq_true, not_or, Bool.not_eq_true, Bool.not_eq_true] at given
    split at answered
    · cases answered
    rename_i token scored
    split at answered
    · cases answered
    rename_i stats known
    split at answered
    · cases answered
    refine ⟨token, stats, scored, known, ?_⟩
    split at answered
    · cases answered
    · rename_i opened
      cases answered
      have nothing := Stores.not_opened stores opened
      exact ⟨by rw [nothing]; rfl, .inl ⟨rfl, .inr nothing⟩⟩
    · rename_i view opened
      obtain ⟨total', walks⟩ := Stores.streamed stores opened
      dsimp only at answered
      split at answered
      · rename_i zero
        cases answered
        exact ⟨total', .inl ⟨rfl, .inl zero⟩⟩
      split at answered
      · cases answered
      rename_i few
      split at answered
      · cases answered
      · rename_i score ready
        obtain ⟨last, walked, result⟩ := Option.map_eq_some_iff.mp answered
        cases result
        refine ⟨total', .inr ⟨score, ready, ?_⟩⟩
        obtain ⟨top, walked', collected⟩ := walks
          { limit
            score
            normsEnabled := stats.normsEnabled
            minDocLenBound := minDocLenBound mapping index field stats
            docLen := stats.docLen }
        cases walked.symm.trans walked'
        rw [collected, ← TopN.collect_eq]
        refine TermStream.foldl_screened (monotone _ _ _ score ready)
          (FieldScoringStats.scoredPostings_ascending (Stores.stored_ascending stores field token)) ?_
        exact fun undercuts => safe ⟨given.1, given.2, token, stats, view, scored, known, opened,
          by omega, undercuts⟩

omit [DecidableEq Digest] in
theorem fieldScoringStats_spec {stats : FieldScoringStats}
    (known : fieldScoringStats mapping index field = some stats) :
    ∃ aggregated, index.fieldStatsAggregated field = some aggregated ∧
      stats.docCount = aggregated.docCount ∧ stats.normsEnabled = mapping.normsEnabled field ∧
      (mapping.normsEnabled field = true → stats.docLen = index.docLen field) := by
  unfold fieldScoringStats at known
  obtain ⟨aggregated, found, known⟩ := Option.bind_eq_some_iff.mp known
  refine ⟨aggregated, found, ?_⟩
  dsimp only at known
  split at known
  · rename_i enabled
    obtain ⟨avgDocLen, -, known⟩ := Option.bind_eq_some_iff.mp known
    cases known
    exact ⟨rfl, rfl, fun _ => rfl⟩
  · rename_i disabled
    cases known
    exact ⟨rfl, rfl, fun enabled => absurd enabled disabled⟩

omit [DecidableEq Digest] in
/-- No document is scored with a length below the bound, where the minima are below all lengths. -/
theorem minDocLenBound_le (bounded : index.LengthsBounded) {stats : FieldScoringStats}
    (known : fieldScoringStats mapping index field = some stats) {stored : List (Nat × Nat)}
    {posting : ScoredPosting} (member : posting ∈ stats.scoredPostings stored) :
    minDocLenBound mapping index field stats ≤ posting.docLen := by
  obtain ⟨⟨docId, freq⟩, -, scored⟩ := List.mem_filterMap.mp member
  dsimp only at scored
  split at scored
  · cases scored
  obtain ⟨docLen, read, rfl⟩ := Option.map_eq_some_iff.mp scored
  obtain ⟨aggregated, found, -, enabled, lengths⟩ := fieldScoringStats_spec known
  rw [enabled] at read
  rw [minDocLenBound, scoringMinDocLen, enabled]
  split at read
  · rename_i norms
    rw [lengths norms] at read
    obtain ⟨read, positive⟩ := Option.filter_eq_some_iff.mp read
    obtain ⟨least, below⟩ := DocumentIndex.minDocLen_le_docLen bounded read found
    rw [if_pos norms, if_pos norms, found, Option.bind_some, if_pos least]
    exact below
  · rename_i disabled
    cases read
    rw [if_neg disabled]

/-- After every run whose steps fit, once the terms are there, the streamed best documents are exact
exactly where no document undercuts the bound; and none does where no length's byte is zero. -/
theorem single_term_topk_exact {steps : List Step} (ready : index.termsDirty = false)
    (fits : DocumentIndex.Meets settings (DocumentIndex.StepFits settings) .new steps)
    (finished : DocumentIndex.new.run settings steps = some index) (mapping : IndexMapping)
    (field value : String) :
    (TopkExact settings mapping index field value ↔ ¬Undercut settings mapping index field value) ∧
      ((∀ action ∈ steps, DocumentIndex.StepEncodes settings action) →
        ¬Undercut settings mapping index field value) := by
  obtain ⟨groups, stores⟩ := DocumentIndex.run_stores ready fits finished
  refine ⟨Stores.topkExact_iff stores, fun encodes => ?_⟩
  have bounded := DocumentIndex.run_lengthsBounded DocumentIndex.new_lengthsBounded encodes finished
  rintro ⟨_, _, token, stats, view, _, known, _, _, earlier, _, later, member, _, short, _⟩
  exact absurd (minDocLenBound_le bounded known member) (not_le.mpr short)

end Runs

section Sample

theorem single_term_topk_exact_rust :
    ∃ index, DocumentIndex.new.run (sampleSettings false) threeDocumentRun = some index ∧
      (index.stored "title" "rust").length = 2 ∧
      TopkExact (sampleSettings false) .default index "title" "rust" := by
  have ready : ((DocumentIndex.new.run (sampleSettings false) threeDocumentRun).map
      fun index => (index.termsDirty, (index.stored "title" "rust").length)) = some (false, 2) := by
    decide +kernel
  obtain ⟨index, finished, both⟩ := Option.map_eq_some_iff.mp ready
  obtain ⟨ready, found⟩ := Prod.mk.inj both
  obtain ⟨exact_iff, safe⟩ :=
    single_term_topk_exact ready threeDocumentRun_fits finished .default "title" "rust"
  refine ⟨index, finished, found, exact_iff.mpr (safe ?_)⟩
  intro action member
  rcases List.mem_pair.mp member with rfl | rfl
  · change ∀ document ∈ _, ∀ entry ∈ _, _
    decide +kernel
  · trivial

def repeatedDocument (docId : UInt32) (word : String) (count : Nat) : Document where
  docId := docId.toNat
  fields := List.replicate count ("title", word)
  docId_fits := docId.toNat_lt

theorem analyzeField_word (document : AnalyzedDocument) :
    analyzeField .ascii .default document "title" "java" =
      { document with
        fieldLengths := document.fieldLengths.upsert "title" fun previous =>
          ((previous.getD (0, true)).1 + 1, true)
        postings := document.postings ++ [("title", "java", [0])] } := by
  have words : analyzedTerms .ascii (AnalyzerName.defaultFor .text) "java" = .singleton "java" [0] := by
    decide +kernel
  have unmapped : IndexMapping.default.fields.get? "title" = none := rfl
  unfold analyzeField
  simp only [unmapped, Option.map_none, Option.getD_none, words]
  simp [SortedMap.singleton]

theorem analyzeDocument_repeated (docId : UInt32) (count : Nat) :
    analyzeDocument .ascii .default (repeatedDocument docId "java" (count + 1)) =
      { docId := docId.toNat
        postings := List.replicate (count + 1) ("title", "java", [0])
        prefixes := []
        subfieldValues := []
        fieldLengths := .singleton "title" (count + 1, true)
        docId_fits := docId.toNat_lt } := by
  unfold analyzeDocument repeatedDocument
  dsimp only
  induction count with
  | zero =>
    rw [List.replicate_one, List.foldl_cons, List.foldl_nil, analyzeField_word]
    rfl
  | succ count ih =>
    rw [List.replicate_succ', List.foldl_append, ih, List.foldl_cons, List.foldl_nil,
      analyzeField_word, ← List.replicate_succ', SortedMap.upsert_singleton]
    rfl

def shortenedDocuments (count : Nat) : List Document :=
  [sampleDocument 0 "rust rust", sampleDocument 1 "rust", repeatedDocument 2 "java" count,
    sampleDocument 3 "rust rust"]

def shortenedRun (count : Nat) : List Step :=
  [.addDocuments (shortenedDocuments count) .default true reliableFiles, .materializeTerms reliableFiles]

structure RustDocument (docId : UInt32) (title : String) (positions : List Nat) : Prop where
  visible : (sampleDocument docId title).Visible .ascii .default ∧
    (sampleDocument docId title).docId < 2 ^ 32 - 1
  valid : (DocumentIndex.new : DocumentIndex (List UInt8)).active.docBase ≤
      (sampleDocument docId title).docId ∧
    (DocumentIndex.new : DocumentIndex (List UInt8)).active.liveDocs.contains
      ((sampleDocument docId title).docId -
        (DocumentIndex.new : DocumentIndex (List UInt8)).active.docBase) = false ∧
    (sampleDocument docId title).docId ∉ ([] : List Nat) ∧
    ∀ field ∈ (sampleDocument docId title).fields, isBlank field.1 = false
  postings : (analyzeDocument .ascii .default (sampleDocument docId title)).postings =
    [("title", "rust", positions)]
  lengths : (analyzeDocument .ascii .default (sampleDocument docId title)).fieldLengths.entries =
    [("title", positions.length, true)]

theorem rustDocuments : RustDocument 0 "rust rust" [0, 1] ∧ RustDocument 1 "rust" [0] ∧
    RustDocument 3 "rust rust" [0, 1] := by
  refine ⟨?_, ?_, ?_⟩ <;> constructor <;> decide +kernel

theorem shortened_visible (count : Nat) :
    ∀ document ∈ shortenedDocuments (count + 1),
      document.Visible .ascii .default ∧ document.docId < 2 ^ 32 - 1 := by
  obtain ⟨first, second, last⟩ := rustDocuments
  simp only [shortenedDocuments, List.forall_mem_cons]
  refine ⟨first.visible, second.visible, ⟨⟨?_, ?_⟩, by simp [repeatedDocument]⟩, last.visible, by simp⟩
  · intro field member
    rw [List.eq_of_mem_replicate member]
    decide
  · intro posting member
    rw [analyzeDocument_repeated] at member
    rw [List.eq_of_mem_replicate member]
    decide

theorem shortened_valid (count : Nat) :
    (DocumentIndex.new : DocumentIndex (List UInt8)).validate (shortenedDocuments count) = .ok () := by
  refine (DocumentIndex.validateFrom_ok_iff _ _).mpr
    ⟨?_, by simp [shortenedDocuments, sampleDocument, repeatedDocument]⟩
  obtain ⟨first, second, last⟩ := rustDocuments
  simp only [shortenedDocuments, List.forall_mem_cons]
  refine ⟨first.valid, second.valid, ⟨Nat.zero_le _, ?_, by simp, ?_⟩, last.valid, by simp⟩
  · exact (by rfl : LiveDocsBitset.default.contains 2 = false)
  · intro field member
    rw [List.eq_of_mem_replicate member]
    decide

def shortenedAdditions (count : Nat) : List Addition :=
  [⟨"title", "rust", 0, [0, 1], zero_fits⟩, ⟨"title", "rust", 1, [0], by decide⟩] ++
    List.replicate count ⟨"title", "java", 2, [0], by decide⟩ ++
    [⟨"title", "rust", 3, [0, 1], by decide⟩]

theorem shortened_additions (count : Nat) :
    ((shortenedDocuments (count + 1)).flatMap fun document =>
      (analyzeDocument .ascii .default document).additions) = shortenedAdditions (count + 1) := by
  obtain ⟨first, second, last⟩ := rustDocuments
  simp only [shortenedDocuments, List.flatMap_cons, List.flatMap_nil, AnalyzedDocument.additions,
    first.postings, second.postings, last.postings, analyzeDocument_repeated, DocumentIndex.analyzeDocument_docId, List.map_cons,
    List.map_nil, List.map_replicate, List.append_nil, List.cons_append, List.nil_append]
  rfl

def shortenedPostings (count : Nat) : Inverted :=
  .singleton "title"
    { entries := [("java", ([2], [count])), ("rust", ([0, 1, 3], [2, 1, 2]))]
      sorted := List.pairwise_pair.mpr (by decide : "java" < "rust") }

def shortenedTerms (count : Nat) : TermDictionary (List UInt8) :=
  assemble id .reliable false p2IntegrityMaxBytes ((shortenedPostings count).map (fieldInput false id))

open Addition in
theorem shortened_postingsOf (count : Nat) (f t : String) :
    postingsOf (shortenedAdditions count) f t =
      if f = "title" then
        if t = "java" then List.replicate count ⟨2, 1⟩
        else if t = "rust" then [⟨0, 2⟩, ⟨1, 1⟩, ⟨3, 2⟩]
        else []
      else [] := by
  have visible : isBlank "title" = false ∧ isBlank "rust" = false ∧ isBlank "java" = false := by decide
  rw [postingsOf, shortenedAdditions, List.filterMap_append, List.filterMap_append]
  by_cases field : f = "title"
  · by_cases java : t = "java"
    · simp [accepted, posting, freqFromPositions, visible, field, java]
    · by_cases rust : t = "rust"
      · simp [accepted, posting, freqFromPositions, visible, field, rust]
      · simp [field, java, rust, Ne.symm java, Ne.symm rust]
  · simp [field, Ne.symm field]

theorem shortened_inverted {count : Nat} (fits : count + 1 < 2 ^ 32) :
    (PostingsBuilder.new.addAll (shortenedAdditions (count + 1))).invert =
      shortenedPostings (count + 1) := by
  apply nested_ext
  · intro f
    have visible : isBlank "title" = false ∧ isBlank "rust" = false ∧ isBlank "java" = false := by decide
    rw [invert_field, field_present, shortenedPostings, SortedMap.get?_singleton, shortenedAdditions]
    by_cases field : f = "title"
    · simp [Addition.accepted, visible, field]
    · simp [field, Ne.symm field]
  · intro f t
    have java : termPostings (List.replicate (count + 1) ⟨2, 1⟩) = ([2], [count + 1]) := by
      rw [termPostings, settle_replicate _ _ fits]
      rfl
    have rust : termPostings [⟨0, 2⟩, ⟨1, 1⟩, ⟨3, 2⟩] = ([0, 1, 3], [2, 1, 2]) := by decide
    rw [find_invert, find_addAll, shortened_postingsOf, find, shortenedPostings, SortedMap.get?_singleton]
    by_cases field : f = "title"
    · by_cases isJava : t = "java"
      · simp [field, isJava, java, SortedMap.get?]
      · by_cases isRust : t = "rust"
        · simp [field, isRust, rust, SortedMap.get?, List.lookup_cons]
        · simp [field, isJava, isRust, SortedMap.get?, List.lookup_cons, beq_false_of_ne]
    · simp [field]

theorem shortened_run {count : Nat} (fits : count + 1 < 2 ^ 32) :
    DocumentIndex.Meets (sampleSettings false) (DocumentIndex.StepFits (sampleSettings false)) .new
        (shortenedRun (count + 1)) ∧
      ∃ index, DocumentIndex.new.run (sampleSettings false) (shortenedRun (count + 1)) = some index ∧
        index.termsDirty = false ∧ index.sealedSegments = [] ∧
        index.active.terms = shortenedTerms (count + 1) ∧
        index.active.fieldStats.get? "title" = some
          ([(0, 2), (1, 1), (2, count + 1), (3, 2)].foldl
            (fun stats entry => FieldLengthStats.recordDocLen stats entry.1 entry.2 true) .default) := by
  have visible := shortened_visible count
  obtain ⟨documents, analyzed⟩ : ∃ documents, documents =
    (shortenedDocuments (count + 1)).map (analyzeDocument .ascii .default) := ⟨_, rfl⟩
  obtain ⟨next, merged⟩ :=
    (@DocumentIndex.mergeAll_ok_iff _ (.new : DocumentIndex (List UInt8)) documents).mpr <| by
      rw [analyzed, List.forall_mem_map]
      intro document member posting recorded
      exact ⟨analyzeDocument_named _ _ (visible document member).1.1 posting recorded,
        (visible document member).1.2 posting recorded⟩
  have kept := DocumentIndex.mergeAll_kept (.new : DocumentIndex (List UInt8)) documents
  rw [merged] at kept
  have alone : next.sealedSegments = [] := kept.sealedSegments
  have built : next.postingsBuilder.invert = shortenedPostings (count + 1) := by
    rw [DocumentIndex.mergeAll_additions merged, analyzed, List.flatMap_map, shortened_additions]
    exact shortened_inverted fits
  have added : DocumentIndex.addDocuments (sampleSettings false) .new (shortenedDocuments (count + 1))
      .default true reliableFiles = (.ok (), { next with termsDirty := true }) := by
    have merged' : DocumentIndex.new.mergeAll ((shortenedDocuments (count + 1)).map
        (analyzeDocument (sampleSettings false).unicode .default)) = (.ok (), next) := analyzed ▸ merged
    rw [DocumentIndex.addDocuments, shortened_valid]
    simp only [merged', if_true]
  have small : Addressable false next.postingsBuilder.invert := by
    rw [built]
    refine addressable_of_entries fun entry member => ?_
    cases List.mem_singleton.mp member
    exact (by decide : 1 + (3 + 0) < 2 ^ 32)
  refine ⟨⟨.inr ⟨visible, fun now => by cases now⟩, fun after stepped =>
      ⟨fun _ => ⟨?_, fun onDisk => by cases onDisk⟩, fun _ _ => trivial⟩⟩,
    ({ next with termsDirty := true } : DocumentIndex _).materializeTerms (sampleSettings false)
      reliableFiles, ?_, rfl, alone, ?_, ?_⟩
  · rw [DocumentIndex.step, added] at stepped
    cases stepped
    exact small
  · rw [shortenedRun, DocumentIndex.run, DocumentIndex.step, added]
    rfl
  · change DocumentIndex.buildActiveTerms _ _ _ = _
    rw [DocumentIndex.buildActiveTerms, DocumentIndex.p2IntegrityBudgetExcluding, DocumentIndex.segments]
    change PostingsBuilder.buildWithLimit _ _ next.postingsBuilder _ _ = _
    rw [buildWithLimit_eq, built]
    simp only [alone]
    rfl
  · change next.active.fieldStats.get? "title" = _
    obtain ⟨first, second, last⟩ := rustDocuments
    rw [DocumentIndex.mergeAll_fieldStats merged, analyzed]
    simp only [shortenedDocuments, List.map_cons, List.map_nil, List.foldl_cons, List.foldl_nil,
      first.lengths, second.lengths, last.lengths, analyzeDocument_repeated, SortedMap.singleton, DocumentIndex.analyzeDocument_docId,
      SortedMap.get?_upsert, if_true]
    rfl

theorem shortened_view {index : DocumentIndex (List UInt8)} (alone : index.sealedSegments = [])
    (terms : index.active.terms = shortenedTerms wrapsFrom) :
    (∃ view, index.segmentedPostingsChecked id "title" "rust" = .ok (some view)) ∧
      index.stored "title" "rust" = [(0, 2), (1, 1), (3, 2)] := by
  constructor
  · have opened : (index.segmentedPostingsChecked id "title" "rust").toOption.join.isSome = true := by
      simp only [DocumentIndex.segmentedPostingsChecked, DocumentIndex.segments, alone, List.nil_append,
        List.map_cons, List.map_nil, DocumentIndex.collectCursors, DocumentIndex.segmentCursor, terms]
      decide +kernel
    cases result : index.segmentedPostingsChecked id "title" "rust" with
    | error e =>
      rw [result] at opened
      cases opened
    | ok found =>
      rw [result] at opened
      obtain ⟨view, rfl⟩ := Option.isSome_iff_exists.mp opened
      exact ⟨view, rfl⟩
  · simp only [DocumentIndex.stored, DocumentIndex.segments, alone, List.nil_append,
      Segment.termPostings, terms, List.filterMap_cons, List.filterMap_nil]
    decide +kernel

theorem shortened_statistics {index : DocumentIndex (List UInt8)} (alone : index.sealedSegments = [])
    (lengths : index.active.fieldStats.get? "title" = some
      ([(0, 2), (1, 1), (2, wrapsFrom - 1 + 1), (3, 2)].foldl
        (fun stats entry => FieldLengthStats.recordDocLen stats entry.1 entry.2 true) .default)) :
    index.fieldStatsAggregated "title" = some ⟨4, 2147483677, 2⟩ ∧
      ∀ docId, index.docLen "title" docId =
        FieldLengthStats.docLen ⟨4, 2147483677, [2, 1, 0, 2], 2⟩ docId := by
  have recorded : ([(0, 2), (1, 1), (2, wrapsFrom - 1 + 1), (3, 2)].foldl
      (fun stats entry => FieldLengthStats.recordDocLen stats entry.1 entry.2 true) .default) =
        ⟨4, 2147483677, [2, 1, 0, 2], 2⟩ := by decide +kernel
  rw [recorded] at lengths
  constructor
  · simp only [DocumentIndex.fieldStatsAggregated, DocumentIndex.segments, alone, List.nil_append,
      List.filterMap_cons, List.filterMap_nil, lengths]
    rfl
  · intro docId
    simp only [DocumentIndex.docLen, alone, lengths, Option.bind_some]

/-- A length whose byte is zero leaves the length of the next document as the smallest one, and the
second document is passed over although it is shorter than the first. -/
theorem not_single_term_topk_exact :
    DocumentIndex.Meets (sampleSettings false) (DocumentIndex.StepFits (sampleSettings false)) .new
        (shortenedRun wrapsFrom) ∧
      ∃ index, DocumentIndex.new.run (sampleSettings false) (shortenedRun wrapsFrom) = some index ∧
        index.termsDirty = false ∧
        ¬TopkExact (sampleSettings false) .default index "title" "rust" := by
  obtain ⟨fits, index, finished, ready, alone, terms, lengths⟩ :=
    @shortened_run (wrapsFrom - 1) (by decide)
  refine ⟨fits, index, finished, ready, fun exact_answer => ?_⟩
  obtain ⟨groups, stores⟩ := DocumentIndex.run_stores ready fits finished
  obtain ⟨⟨view, opened⟩, stored⟩ := shortened_view alone terms
  have norms : IndexMapping.default.normsEnabled "title" = true := by decide
  obtain ⟨aggregated, docLen⟩ := shortened_statistics alone lengths
  have known : fieldScoringStats .default index "title" =
      some ⟨4, 2147483677 / 4, true, index.docLen "title"⟩ := by
    rw [fieldScoringStats, aggregated]
    simp only [Option.bind_eq_bind, Option.bind_some, norms, if_true, avgDocLen]
    rfl
  have least : minDocLenBound .default index "title" ⟨4, 2147483677 / 4, true, index.docLen "title"⟩ = 2 := by
    simp only [minDocLenBound, scoringMinDocLen, norms, if_true, aggregated]
    rfl
  have few : (index.stored "title" "rust").length ≤ 4 := by
    rw [stored]
    decide
  refine (Stores.topkExact_iff stores).mp exact_answer ⟨by decide, by decide, "rust", _, view,
    by decide +kernel, known, opened, few, ?_⟩
  rw [least, stored]
  refine ⟨⟨0, 2, 2⟩, List.mem_filterMap.mpr ⟨(0, 2), by simp, ?_⟩, ⟨1, 1, 1⟩,
    List.mem_filterMap.mpr ⟨(1, 1), by simp, ?_⟩, by decide⟩
  · simp only [docLen]
    rfl
  · simp only [docLen]
    rfl

end Sample

end Surch.Api
