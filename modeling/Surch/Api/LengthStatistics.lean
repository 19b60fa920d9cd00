import Mathlib.Algebra.Order.BigOperators.Group.List
import Surch.Api.Queries
import Surch.Api.SingleTermRuns
import Surch.Index.LengthReads

/-! The statistics that BM25 is computed from, after every run that adds documents: they are those of
the documents that post in a field, and a scorer can be built for every term of the field. -/
namespace Surch.Api
open Surch.Lib Surch.Postings Surch.Index

section Scorer

structure Bm25Config where
  k1 : ℚ
  b : ℚ

/- The variants for numbers that are not finite are left out. -/
inductive Bm25Error where
  | docCountZero
  | docFreqZero
  | docFreqExceedsDocCount (docFreq docCount : Nat)
  | avgDocLenNotPositive
  | negativeK1 (k1 : ℚ)
  | bOutOfRange (b : ℚ)
deriving DecidableEq

def Bm25Config.new (k1 b : ℚ) : Except Bm25Error Bm25Config :=
  if k1 < 0 then .error (.negativeK1 k1)
  else if ¬(0 ≤ b ∧ b ≤ 1) then .error (.bOutOfRange b)
  else .ok ⟨k1, b⟩

def Bm25Config.default : Bm25Config := ⟨6 / 5, 3 / 4⟩

def validateCorpusStats (docCount docFreq : Nat) : Except Bm25Error Unit :=
  if docCount = 0 then .error .docCountZero
  else if docFreq = 0 then .error .docFreqZero
  else if docFreq > docCount then .error (.docFreqExceedsDocCount docFreq docCount)
  else .ok ()

structure Bm25TermScorer (Score : Type) where
  idf : Score
  k1 : ℚ
  b : ℚ
  avgDocLen : ℚ

/- `Bm25TermScorer::new`. The logarithm of `bm25_idf` is given. -/
def Bm25TermScorer.new {Score : Type} (bm25Idf : Nat → Nat → Score) (config : Bm25Config)
    (docCount docFreq : Nat) (avgDocLen : ℚ) : Except Bm25Error (Bm25TermScorer Score) := do
  let config ← Bm25Config.new config.k1 config.b
  validateCorpusStats docCount docFreq
  if avgDocLen ≤ 0 then .error .avgDocLenNotPositive
  else
    return { idf := bm25Idf docCount docFreq
             k1 := config.k1
             b := config.b
             avgDocLen }

theorem Bm25TermScorer.new_ok {Score : Type} (bm25Idf : Nat → Nat → Score) {docCount docFreq : Nat}
    {avgDocLen : ℚ} (some_documents : 0 < docFreq) (within : docFreq ≤ docCount)
    (positive : 0 < avgDocLen) :
    ∃ scorer, Bm25TermScorer.new bm25Idf .default docCount docFreq avgDocLen = .ok scorer := by
  have config : Bm25Config.new Bm25Config.default.k1 Bm25Config.default.b = .ok .default := by
    rw [Bm25Config.new, if_neg (by norm_num [Bm25Config.default]),
      if_neg (by norm_num [Bm25Config.default])]
  have stats : validateCorpusStats docCount docFreq = .ok () := by
    rw [validateCorpusStats, if_neg (by omega), if_neg (by omega), if_neg (by omega)]
  rw [Bm25TermScorer.new, config]
  simp only [stats, bind, Except.bind, if_neg (not_le.mpr positive)]
  exact ⟨_, rfl⟩

end Scorer

section Statistics

variable {Digest : Type} (settings : Settings Digest) (mapping : IndexMapping)
  (index : DocumentIndex Digest) (documents : List Document) (field : String)

def postingDocuments : List Document :=
  documents.filter fun document => (analyzeDocument settings.unicode mapping document).postsIn field

def docTokens (document : Document) : Nat :=
  tokenCount settings.unicode mapping document.fields field

structure LengthsExact : Prop where
  docCount : ((index.fieldStatsAggregated field).map
    DocumentIndex.AggregatedFieldStats.docCount).getD 0 =
      (postingDocuments settings mapping documents field).length
  totalTerms : mapping.normsEnabled field = true →
    ((index.fieldStatsAggregated field).map
      DocumentIndex.AggregatedFieldStats.totalTerms).getD 0 =
        ((postingDocuments settings mapping documents field).map
          (docTokens settings mapping field)).sum
  docLen : mapping.normsEnabled field = true →
    ∀ document ∈ postingDocuments settings mapping documents field,
      docTokens settings mapping field document < 2 ^ 31 →
        (index.docLen field document.docId).isSome = true

def MinDocLenExact : Prop :=
  mapping.normsEnabled field = true →
    ((index.fieldStatsAggregated field).map
      DocumentIndex.AggregatedFieldStats.minDocLen).getD 0 =
        (((postingDocuments settings mapping documents field).filterMap fun document =>
          index.docLen field document.docId).min?).getD 0

structure TermsScored : Prop where
  docFreq : ∀ term, ∀ view ∈ termScoringView index field term,
    view.docFreq ≤ ((index.fieldStatsAggregated field).map
      DocumentIndex.AggregatedFieldStats.docCount).getD 0
  scorer : ∀ term, ∀ view ∈ termScoringView index field term, 0 < view.docFreq →
    ∃ stats, fieldScoringStats mapping index field = some stats ∧
      ∀ (Score : Type) (bm25Idf : Nat → Nat → Score), ∃ scorer,
        Bm25TermScorer.new bm25Idf .default stats.docCount view.docFreq stats.avgDocLen = .ok scorer

end Statistics

section Runs

variable {Digest : Type} {settings : Settings Digest} {mapping : IndexMapping}
  {index : DocumentIndex Digest} {field : String}

theorem tokensIn_analyzed (own : ¬ mapping.IsSubfieldPath field) (documents : List Document) :
    tokensIn field (documents.map (analyzeDocument settings.unicode mapping)) =
      (postingDocuments settings mapping documents field).map (docTokens settings mapping field) := by
  induction documents with
  | nil => rfl
  | cons document rest ih =>
    have posts := analyzeDocument_postsIn settings.unicode mapping document own
    rw [tokensIn, List.map_cons, List.filterMap_cons, analyzeDocument_fieldLengths, lengthEntry,
      postingDocuments, List.filter_cons]
    by_cases tokens : tokenCount settings.unicode mapping document.fields field = 0
    · have silent : (analyzeDocument settings.unicode mapping document).postsIn field = false := by
        rw [← Bool.not_eq_true, posts]
        exact not_not.mpr tokens
      rw [if_pos tokens, silent]
      exact ih
    · rw [if_neg tokens, if_pos (posts.mpr tokens), List.map_cons]
      exact congrArg _ ih

theorem encodes_of_lt {tokens : Nat} (nonzero : tokens ≠ 0) (short : tokens < 2 ^ 31) :
    FieldLengthStats.encodedLen tokens ≠ 0 := by
  intro zero
  have wrapped := (encodedLen_eq_zero_iff nonzero).mp zero
  rw [wrapsFrom] at wrapped
  omega

theorem docFreq_stored {groups : List (List Addition)} (stores : Stores settings index groups)
    {term : String} {view : TermScoringView} (read : termScoringView index field term = some view) :
    view.docFreq = (postingsFor groups.flatten field term).length := by
  rw [termScoringView] at read
  split at read
  · rename_i onDisk
    have spec := stores.decodeFromSegment onDisk field term
    cases found : index.decodeFromSegment field term with
    | none =>
      rw [found] at read
      cases read
    | some v =>
      rw [found] at read spec
      cases read
      obtain ⟨aligned, same⟩ := spec
      rw [← same, entries, List.length_zip, ← aligned, Nat.min_self]
      rfl
  · rename_i inMemory
    rw [stores.resident (by simpa using inMemory)] at read
    rw [postingsFor, storedEntries]
    cases found : find (PostingsBuilder.new.addAll groups.flatten).invert field term with
    | none =>
      rw [found] at read
      cases read
      rfl
    | some v =>
      rw [found] at read
      cases read
      have aligned := (invert_isPostings found).1.aligned
      rw [Option.map_some, Option.getD_some, entries, List.length_zip, ← aligned, Nat.min_self]
      rfl

/-- Where documents have tokens, a field has scoring statistics with a positive average length. -/
theorem fieldScoringStats_positive {stats : DocumentIndex.AggregatedFieldStats}
    (found : index.fieldStatsAggregated field = some stats) (some_documents : 0 < stats.docCount)
    (some_terms : mapping.normsEnabled field = true → 0 < stats.totalTerms) :
    ∃ scoring, fieldScoringStats mapping index field = some scoring ∧
      scoring.docCount = stats.docCount ∧ 0 < scoring.avgDocLen := by
  rw [fieldScoringStats, found]
  cases norms : mapping.normsEnabled field with
  | false => exact ⟨_, rfl, rfl, by norm_num⟩
  | true =>
    have positive := some_terms norms
    have average : avgDocLen stats = some ((stats.totalTerms : ℚ) / stats.docCount) := by
      rw [avgDocLen, if_pos ⟨some_documents, positive⟩]
    simp only [Option.bind_eq_bind, Option.bind_some, if_true, average]
    refine ⟨_, rfl, rfl, ?_⟩
    exact div_pos (Nat.cast_pos.mpr positive) (Nat.cast_pos.mpr some_documents)

/-- After every run of accepted batches of new documents under one mapping, the statistics of a field
that is no sub-field's path are those of the documents that post in it; the minimum is exact where
their lengths are short, and terms are scored where the dictionaries can be read. -/
theorem length_statistics_exact {steps : List Step}
    (adds : DocumentIndex.Meets settings (DocumentIndex.AddsUnder settings mapping) .new steps)
    (fresh : ((DocumentIndex.addedDocuments steps).map Document.docId).Nodup)
    (finished : DocumentIndex.new.run settings steps = some index)
    (own : ¬ mapping.IsSubfieldPath field) :
    LengthsExact settings mapping index (DocumentIndex.addedDocuments steps) field ∧
      ((∀ document ∈ postingDocuments settings mapping (DocumentIndex.addedDocuments steps) field,
          docTokens settings mapping field document < 2 ^ 31) →
        MinDocLenExact settings mapping index (DocumentIndex.addedDocuments steps) field) ∧
      (DocumentIndex.Meets settings (DocumentIndex.TermsFit settings) .new steps →
        TermsScored mapping index field) := by
  have ids : ((DocumentIndex.addedDocuments steps).map
      (analyzeDocument settings.unicode mapping)).map AnalyzedDocument.docId =
      (DocumentIndex.addedDocuments steps).map Document.docId := by
    rw [List.map_map]
    exact List.map_congr_left fun document _ =>
      DocumentIndex.analyzeDocument_docId settings.unicode mapping document
  obtain ⟨filing, recent, accounts, same, posts⟩ := DocumentIndex.run_accounts
    (DocumentIndex.new_accounts mapping) adds (ids.symm ▸ fresh) finished
  have documents : filing.flatMap Prod.snd ++ recent =
      (DocumentIndex.addedDocuments steps).map (analyzeDocument settings.unicode mapping) := same
  have aggregated := accounts.aggregated field
  rw [documents, tokensIn_analyzed own] at aggregated
  generalize DocumentIndex.addedDocuments steps = added at *
  have tokens_of : ∀ document ∈ postingDocuments settings mapping added field,
      document ∈ added ∧ docTokens settings mapping field document ≠ 0 := by
    intro document member
    obtain ⟨inside, posting⟩ := List.mem_filter.mp member
    exact ⟨inside, (analyzeDocument_postsIn settings.unicode mapping document own).mp posting⟩
  have docLen : mapping.normsEnabled field = true →
      ∀ document ∈ postingDocuments settings mapping added field,
        docTokens settings mapping field document < 2 ^ 31 →
          index.docLen field document.docId =
            some (FieldLengthStats.storedLen (docTokens settings mapping field document)) := by
    intro norms document member short
    obtain ⟨inside, nonzero⟩ := tokens_of document member
    have length := analyzeDocument_fieldLengths settings.unicode mapping document field
    have some_tokens : tokenCount settings.unicode mapping document.fields field ≠ 0 := nonzero
    rw [lengthEntry, if_neg some_tokens] at length
    rw [← DocumentIndex.analyzeDocument_docId settings.unicode mapping document]
    refine accounts.docLen ?_ length norms (encodes_of_lt nonzero short)
    rw [documents]
    exact List.mem_map_of_mem inside
  have docCount : ((index.fieldStatsAggregated field).map
      DocumentIndex.AggregatedFieldStats.docCount).getD 0 =
        (postingDocuments settings mapping added field).length := by
    cases found : index.fieldStatsAggregated field with
    | none =>
      rw [found] at aggregated
      rw [List.map_eq_nil_iff.mp aggregated]
      rfl
    | some stats =>
      rw [found] at aggregated
      exact aggregated.1.trans (List.length_map _)
  have totalTerms : mapping.normsEnabled field = true →
      ((index.fieldStatsAggregated field).map
        DocumentIndex.AggregatedFieldStats.totalTerms).getD 0 =
          ((postingDocuments settings mapping added field).map
            (docTokens settings mapping field)).sum := by
    intro norms
    cases found : index.fieldStatsAggregated field with
    | none =>
      rw [found] at aggregated
      rw [aggregated]
      rfl
    | some stats =>
      rw [found] at aggregated
      exact aggregated.2.1 norms
  refine ⟨⟨docCount, totalTerms, fun norms document member short => ?_⟩, fun short norms => ?_,
    fun fits => ⟨fun term view read => ?_, fun term view read some_postings => ?_⟩⟩
  · rw [docLen norms document member short]
    rfl
  · have lengths : ((postingDocuments settings mapping added field).filterMap fun document =>
        index.docLen field document.docId) =
        ((postingDocuments settings mapping added field).map
          (docTokens settings mapping field)).map FieldLengthStats.storedLen := by
      rw [List.map_map, ← List.filterMap_eq_map]
      exact List.filterMap_congr fun document member =>
        docLen norms document member (short document member)
    rw [lengths]
    cases found : index.fieldStatsAggregated field with
    | none =>
      rw [found] at aggregated
      rw [aggregated]
      rfl
    | some stats =>
      rw [found] at aggregated
      refine aggregated.2.2 norms fun tokens member => ?_
      obtain ⟨document, inside, rfl⟩ := List.mem_map.mp member
      exact encodes_of_lt (tokens_of document inside).2 (short document inside)
  all_goals
    obtain ⟨groups, stores, owned⟩ := accounts.stores (posts DocumentIndex.new_posts fits)
    rw [documents] at owned
    have bound := DocumentIndex.length_postingsFor_le owned field term
    have posting : ((added.map (analyzeDocument settings.unicode mapping)).filter fun document =>
        document.postsIn field).length = (postingDocuments settings mapping added field).length := by
      rw [List.filter_map, List.length_map]
      rfl
    rw [posting, ← docFreq_stored stores read] at bound
  · rw [docCount]
    exact bound
  · cases found : index.fieldStatsAggregated field with
    | none =>
      rw [found] at docCount
      have nothing : 0 = (postingDocuments settings mapping added field).length := docCount
      omega
    | some stats =>
      rw [found] at docCount totalTerms
      have counted : stats.docCount = (postingDocuments settings mapping added field).length :=
        docCount
      obtain ⟨scoring, known, same_count, positive⟩ := fieldScoringStats_positive found
        (by omega) fun norms => by
          have total : stats.totalTerms = ((postingDocuments settings mapping added field).map
            (docTokens settings mapping field)).sum := totalTerms norms
          obtain ⟨document, member⟩ := List.exists_mem_of_length_pos
            (l := postingDocuments settings mapping added field) (by omega)
          have here := List.single_le_sum (fun _ _ => Nat.zero_le _) _
            (List.mem_map_of_mem (f := docTokens settings mapping field) member)
          have nonzero := (tokens_of document member).2
          omega
      refine ⟨scoring, known, fun Score bm25Idf => ?_⟩
      exact Bm25TermScorer.new_ok bm25Idf some_postings (by omega) positive

namespace DocumentIndex

variable {action : Step}

def accepts (settings : Settings Digest) (index : DocumentIndex Digest) : Step → Bool
  | .addDocuments documents mapping deferred files =>
    (index.addDocuments settings documents mapping deferred files).1.isOk
  | _ => true

def AddsTo (mapping : IndexMapping) : Step → Prop
  | .addDocuments _ mapping' _ _ => mapping' = mapping
  | .clear => False
  | _ => True

theorem accepts_sound (adds : AddsTo mapping action) (checked : accepts settings index action = true) :
    index.AddsUnder settings mapping action := by
  cases action with
  | addDocuments documents mapping' deferred files =>
    refine ⟨adds, (index.addDocuments settings documents mapping' deferred files).2, ?_⟩
    simp only [accepts] at checked
    cases added : index.addDocuments settings documents mapping' deferred files with
    | mk outcome next =>
      rw [added] at checked
      cases outcome with
      | error error => cases checked
      | ok => rfl
  | clear => exact adds
  | _ => trivial

theorem stepFits_terms (read : action.Read) (checked : index.stepFits settings action = true) :
    index.TermsFit settings action := by
  have fits := DocumentIndex.stepFits_sound read checked
  cases action with
  | addDocuments documents mapping deferred files =>
    intro now
    obtain ⟨-, build⟩ := Bool.and_eq_true .. ▸ checked
    rw [now] at build
    exact DocumentIndex.buildFits_sound read build
  | _ => exact fits

end DocumentIndex

def taggedMapping : IndexMapping := ⟨.singleton "tag" (FieldMapping.new .keyword none), .default⟩

def taggedDocument (docId : UInt32) (titles : List String) (tag : String) : Document where
  docId := docId.toNat
  fields := titles.map (fun title => ("title", title)) ++ [("tag", tag)]
  docId_fits := docId.toNat_lt

def taggedRun : List Step :=
  [.addDocuments [taggedDocument 0 ["rust", "lean"] "a"] taggedMapping true reliableFiles,
    .maybeFlushByBudget 1 reliableFiles,
    .addDocuments [taggedDocument 1 ["rust lean", "rust"] "b"] taggedMapping true reliableFiles,
    .maybeFlushByBudget 1 reliableFiles,
    .addDocuments [taggedDocument 2 ["lean"] "a"] taggedMapping true reliableFiles,
    .materializeTerms reliableFiles]

theorem length_statistics_exact_three_documents :
    ∃ index, DocumentIndex.new.run (sampleSettings true) taggedRun = some index ∧
      index.sealedSegments.map Segment.docCount = [2] ∧
      taggedMapping.normsEnabled "tag" = false ∧
      index.fieldStatsAggregated "title" = some ⟨3, 6, 1⟩ ∧
      index.fieldStatsAggregated "tag" = some ⟨3, 0, 0⟩ ∧
      ∀ field ∈ ["title", "tag"],
        LengthsExact (sampleSettings true) taggedMapping index
          (DocumentIndex.addedDocuments taggedRun) field ∧
        MinDocLenExact (sampleSettings true) taggedMapping index
          (DocumentIndex.addedDocuments taggedRun) field ∧
        TermsScored taggedMapping index field := by
  have computed : (DocumentIndex.new.run (sampleSettings true) taggedRun).map (fun index =>
      (index.sealedSegments.map Segment.docCount, index.fieldStatsAggregated "title",
        index.fieldStatsAggregated "tag")) = some ([2], some ⟨3, 6, 1⟩, some ⟨3, 0, 0⟩) := by
    decide +kernel
  obtain ⟨index, finished, values⟩ := Option.map_eq_some_iff.mp computed
  rw [Prod.mk.injEq, Prod.mk.injEq] at values
  obtain ⟨merged, titles, tags⟩ := values
  have adds : DocumentIndex.Meets (sampleSettings true)
      (DocumentIndex.AddsUnder (sampleSettings true) taggedMapping) .new taggedRun := by
    have under : ∀ action ∈ taggedRun, DocumentIndex.AddsTo taggedMapping action := by
      simp [taggedRun, DocumentIndex.AddsTo]
    apply DocumentIndex.checkRun_sound fun action member index =>
      DocumentIndex.accepts_sound (under action member)
    decide +kernel
  have fits : DocumentIndex.Meets (sampleSettings true)
      (DocumentIndex.TermsFit (sampleSettings true)) .new taggedRun := by
    have read : ∀ action ∈ taggedRun, action.Read := by simp [taggedRun, Step.Read, reliableFiles_read]
    apply DocumentIndex.checkRun_sound fun action member index =>
      DocumentIndex.stepFits_terms (read action member)
    decide +kernel
  have short : ∀ field ∈ ["title", "tag"], ∀ document ∈ postingDocuments (sampleSettings true)
      taggedMapping (DocumentIndex.addedDocuments taggedRun) field,
      docTokens (sampleSettings true) taggedMapping field document < 2 ^ 31 := by decide +kernel
  refine ⟨index, finished, merged, by decide, titles, tags, fun field member => ?_⟩
  have own : ¬ taggedMapping.IsSubfieldPath field := by
    rintro ⟨name, fieldMapping, found, sub, listed, -⟩
    rw [taggedMapping, SortedMap.get?_singleton] at found
    split at found
    · cases found
      cases listed
    · cases found
  obtain ⟨lengths, least, terms⟩ := length_statistics_exact adds (by decide) finished own
  exact ⟨lengths, least (short field member), terms fits⟩

def rawNameMapping : IndexMapping :=
  ⟨.singleton "name" { FieldMapping.new .text none with
    fields := [("raw", FieldMapping.new .keyword none)] }, .default⟩

def rawNameDocument (docId : UInt32) (field value : String) : Document where
  docId := docId.toNat
  fields := [(field, value)]
  docId_fits := docId.toNat_lt

def rawNameRun : List Step :=
  [.addDocuments [rawNameDocument 0 "name" "ab", rawNameDocument 1 "name" "ab", rawNameDocument 2 "name.raw" "cd"]
      rawNameMapping true reliableFiles,
    .materializeTerms reliableFiles]

/-- The sub-field posts without being counted; and a length whose byte is zero forgets the minimum. -/
theorem not_length_statistics_exact :
    (∃ index, DocumentIndex.new.run (sampleSettings false) rawNameRun = some index ∧
      DocumentIndex.Meets (sampleSettings false)
        (DocumentIndex.AddsUnder (sampleSettings false) rawNameMapping) .new rawNameRun ∧
      ((DocumentIndex.addedDocuments rawNameRun).map Document.docId).Nodup ∧
      ¬ LengthsExact (sampleSettings false) rawNameMapping index
        (DocumentIndex.addedDocuments rawNameRun) "name.raw" ∧
      ¬ TermsScored rawNameMapping index "name.raw") ∧
    ∃ index, DocumentIndex.new.run (sampleSettings false) (shortenedRun wrapsFrom) = some index ∧
      DocumentIndex.Meets (sampleSettings false)
        (DocumentIndex.AddsUnder (sampleSettings false) .default) .new (shortenedRun wrapsFrom) ∧
      ((DocumentIndex.addedDocuments (shortenedRun wrapsFrom)).map Document.docId).Nodup ∧
      ¬ MinDocLenExact (sampleSettings false) .default index
        (DocumentIndex.addedDocuments (shortenedRun wrapsFrom)) "title" := by
  constructor
  · have computed : (DocumentIndex.new.run (sampleSettings false) rawNameRun).map (fun index =>
        (index.fieldStatsAggregated "name.raw",
          (termScoringView index "name.raw" "ab").map TermScoringView.docFreq)) =
        some (some ⟨1, 1, 1⟩, some 2) ∧
        (postingDocuments (sampleSettings false) rawNameMapping (DocumentIndex.addedDocuments rawNameRun)
          "name.raw").length = 3 := by decide +kernel
    obtain ⟨run, posting⟩ := computed
    obtain ⟨index, finished, both⟩ := Option.map_eq_some_iff.mp run
    obtain ⟨stats, view⟩ := Prod.mk.inj both
    refine ⟨index, finished, ⟨⟨rfl, (DocumentIndex.addDocuments_ok_iff _ _ _ _).mpr
      (by decide +kernel)⟩, fun _ _ => ⟨trivial, fun _ _ => trivial⟩⟩, by decide, ?_, ?_⟩
    · intro lengths
      have counted := lengths.docCount
      rw [stats, posting] at counted
      cases counted
    · intro terms
      obtain ⟨two, found, frequency⟩ := Option.map_eq_some_iff.mp view
      have bound := terms.docFreq "ab" two found
      rw [stats, frequency] at bound
      exact absurd bound (by decide)
  · obtain ⟨-, index, finished, -, alone, -, lengths⟩ := @shortened_run (wrapsFrom - 1) (by decide)
    obtain ⟨aggregated, docLen⟩ := shortened_statistics alone lengths
    have valid := (DocumentIndex.validateFrom_ok_iff _ _).mp (shortened_valid wrapsFrom)
    refine ⟨index, finished, ⟨⟨rfl, (DocumentIndex.addDocuments_ok_iff _ _ _ _).mpr
      ⟨fun document member => ⟨(valid.1 document member).1, (valid.1 document member).2.1,
        (shortened_visible (wrapsFrom - 1) document member).1⟩, valid.2⟩⟩,
      fun _ _ => ⟨trivial, fun _ _ => trivial⟩⟩, ?_, fun least => ?_⟩
    · have added : DocumentIndex.addedDocuments (shortenedRun wrapsFrom) =
          shortenedDocuments wrapsFrom := List.append_nil _
      rw [added]
      exact valid.2
    · have minimum := least (by decide)
      have posts : (analyzeDocument .ascii .default (sampleDocument 1 "rust")).postsIn "title" =
          true := by decide +kernel
      have second : sampleDocument 1 "rust" ∈ postingDocuments (sampleSettings false) .default
          (DocumentIndex.addedDocuments (shortenedRun wrapsFrom)) "title" :=
        List.mem_filter.mpr ⟨by simp [shortenedRun, DocumentIndex.addedDocuments, shortenedDocuments],
          posts⟩
      have one : index.docLen "title" (sampleDocument 1 "rust").docId = some 1 := by
        rw [docLen]
        decide +kernel
      have listed : 1 ∈ (postingDocuments (sampleSettings false) .default
          (DocumentIndex.addedDocuments (shortenedRun wrapsFrom)) "title").filterMap fun document =>
            index.docLen "title" document.docId :=
        List.mem_filterMap.mpr ⟨_, second, one⟩
      rw [aggregated] at minimum
      cases found : ((postingDocuments (sampleSettings false) .default
          (DocumentIndex.addedDocuments (shortenedRun wrapsFrom)) "title").filterMap fun document =>
            index.docLen "title" document.docId).min? with
      | none =>
        rw [List.min?_eq_none_iff.mp found] at listed
        cases listed
      | some low =>
        have below := (List.min?_eq_some_iff.mp found).2 1 listed
        rw [found] at minimum
        have two : 2 = low := minimum
        omega

end Runs

end Surch.Api
