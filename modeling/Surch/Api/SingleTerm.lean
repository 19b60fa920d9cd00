import Surch.Api.FusedScores
import Surch.Api.Hydration

/-! `single_term_match_topk_streamed`: the best documents of one term, walked segment by segment, where
a document is passed over once the bound of its score cannot compete. -/
namespace Surch.Api
open Surch.Lib Surch.Codec Surch.Postings Surch.Index

section Threshold

variable {Score : Type} [LinearOrder Score]

structure MinCompetitiveScore (Score : Type) where
  kthBest : Option Score

namespace MinCompetitiveScore

def unset : MinCompetitiveScore Score := ⟨none⟩

def observeKthBest (_ : MinCompetitiveScore Score) (kthBestScore : Score) : MinCompetitiveScore Score :=
  ⟨some kthBestScore⟩

def isArmed (minCompetitive : MinCompetitiveScore Score) : Bool := minCompetitive.kthBest.isSome

/- A tie with the K-th best is not admitted. -/
def admits (minCompetitive : MinCompetitiveScore Score) (scoreUpperBound : Score) : Bool :=
  match minCompetitive.kthBest with
  | none => true
  | some kthBest => scoreUpperBound > kthBest

end MinCompetitiveScore

end Threshold

section Stream

variable {Digest Score : Type} [DecidableEq Digest] [LinearOrder Score]

structure TermStream (Score : Type) where
  limit : Nat
  score : Nat → Nat → Score
  normsEnabled : Bool
  minDocLenBound : Nat
  docLen : Nat → Option Nat

structure StreamedTop (Score : Type) where
  topn : List (Ranked Score)
  minCompetitive : MinCompetitiveScore Score
  docsScored : Nat
  docsElagues : Nat

namespace TermStream

variable (stream : TermStream Score)

def scoredLen (docId : Nat) : Option Nat :=
  if stream.normsEnabled then (stream.docLen docId).filter (0 < ·) else some 1

def visit (top : StreamedTop Score) (docId freq : Nat) : StreamedTop Score :=
  if freq = 0 then top
  else if top.minCompetitive.isArmed &&
      !top.minCompetitive.admits (stream.score freq stream.minDocLenBound) then
    { top with docsElagues := top.docsElagues + 1 }
  else
    match stream.scoredLen docId with
    | none => top
    | some docLen =>
      let topn := TopN.push stream.limit top.topn (.of (stream.score freq docLen) docId)
      { topn
        minCompetitive :=
          match TopN.worstWhenFull stream.limit topn with
          | some kthBest => top.minCompetitive.observeKthBest kthBest.score
          | none => top.minCompetitive
        docsScored := top.docsScored + 1
        docsElagues := top.docsElagues }

/- The inner loop; a cursor hands out at most 2³² documents. -/
def walkSegment : Nat → SegmentPostingsCursor → Nat → StreamedTop Score → Option (StreamedTop Score)
  | 0, _, _, _ => none
  | fuel + 1, cursor, nextProbe, top =>
    match cursor.next nextProbe with
    | .ok (some (docId, freq), cursor) =>
      walkSegment fuel cursor (SegmentPostingsCursor.after docId) (stream.visit top docId freq)
    | .ok (none, _) => some top
    | .error () => none

def walkSegments : List (Option SegmentPostingsCursor) → StreamedTop Score → Option (StreamedTop Score)
  | [], top => some top
  | none :: rest, top => walkSegments rest top
  | some cursor :: rest, top => (stream.walkSegment (2 ^ 32 + 1) cursor 0 top).bind (walkSegments rest)

end TermStream

variable (settings : Settings Digest) (mapping : IndexMapping) (index : DocumentIndex Digest)

/- `min_doc_len` of the field's scoring statistics, as `min_doc_len()` hands it out. -/
def scoringMinDocLen (field : String) : Option Nat :=
  if mapping.normsEnabled field then
    (index.fieldStatsAggregated field).bind fun aggregated =>
      if 0 < aggregated.minDocLen then some aggregated.minDocLen else none
  else none

/- `Bm25TermScorer::new(..).ok()` of a document count, a document frequency and an average length: a
score for each term frequency and document length. -/
abbrev TermScorer (Score : Type) := Nat → Nat → ℚ → Option (Nat → Nat → Score)

variable (newScorer : TermScorer Score) (limit : Nat)

def singleTermMatchTopkStreamed (field value : String) : Option (List (Ranked Score) × Nat) :=
  if isBlank field || value.isEmpty then none
  else
    match scoredToken settings mapping (field, value) with
    | none => none
    | some token =>
      match fieldScoringStats mapping index field with
      | none => none
      | some fieldStats =>
        if fieldStats.docCount = 0 then none
        else
          match index.segmentedPostingsChecked settings.hash field token with
          | .error _ => none
          | .ok none => some ([], 0)
          | .ok (some postings) =>
            let total := postings.globalDf
            if limit = 0 then some ([], total)
            else if total = 0 ∨ total > fieldStats.docCount then none
            else
              match newScorer fieldStats.docCount total fieldStats.avgDocLen with
              | none => none
              | some score =>
                let stream : TermStream Score :=
                  { limit
                    score
                    normsEnabled := fieldStats.normsEnabled
                    minDocLenBound :=
                      if fieldStats.normsEnabled then (scoringMinDocLen mapping index field).getD 1 else 1
                    docLen := fieldStats.docLen }
                (stream.walkSegments postings.perSegment ⟨[], .unset, 0, 0⟩).map fun top =>
                  (top.topn, total)

end Stream

end Surch.Api
