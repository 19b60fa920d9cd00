import Mathlib.Algebra.Order.Ring.Rat
import Surch.Api.InMemoryIndex
import Surch.Index.StoredPostings

/-! The evaluators of a conjunction: over resident lists, over the cursors of each segment, over
decoded postings, and the two that score on the way. -/
namespace Surch.Api
open Surch.Lib Surch.Postings Surch.Index

variable {Digest : Type} [DecidableEq Digest]

def btreeSet (docIds : List Nat) : List Nat := (SortedMap.ofKeys docIds fun _ => ()).keys

section Hits

variable (hash : List UInt8 → Digest) (index : DocumentIndex Digest)

def conjunctionHitsMerged : Option (List Nat) → List (String × String) → List Nat
  | met, [] => met.getD []
  | met, (field, term) :: rest =>
    match index.decodeFromSegment field term with
    | none => []
    | some (docIds, _) =>
      let current := btreeSet docIds
      let met := (met.map fun previous => previous.filter fun docId => current.contains docId).getD
        current
      if met.isEmpty then [] else conjunctionHitsMerged (some met) rest

def materialisedConjunction (lists : List PostingsList) : List Nat :=
  (lists.foldl
    (fun (met : Option (List Nat)) list =>
      let set := btreeSet list.docIds
      some ((met.map fun previous => previous.filter fun docId => set.contains docId).getD set))
    none).getD []

def conjunctionHitsSegment (cursors : List SegmentPostingsCursor) : Except Unit (List Nat) :=
  (SegmentPostingsCursor.walk (cursors.insertionSort fun a b => a.localDf ≤ b.localDf)).map
    fun hits => hits.map Prod.fst

inductive Opened where
  | views (views : List SegmentedPostings)
  | absent
  | failed

def openTerms : List (String × String) → Opened
  | [] => .views []
  | (field, term) :: rest =>
    match index.segmentedPostingsChecked hash field term with
    | .ok (some view) =>
      match openTerms rest with
      | .views views => .views (view :: views)
      | early => early
    | .ok none => .absent
    | .error _ => .failed

def cursorsAt (views : List SegmentedPostings) (segmentIdx : Nat) :
    Option (List SegmentPostingsCursor) :=
  views.mapM fun view => view.perSegment[segmentIdx]?.join

def segmentHits (views : List SegmentedPostings) (segmentIdx : Nat) : Except Unit (List Nat) :=
  match cursorsAt views segmentIdx with
  | none => .ok []
  | some cursors => conjunctionHitsSegment cursors

def conjunctionHitsDisk (terms : List (String × String)) : List Nat :=
  match openTerms hash index terms with
  | .absent => []
  | .failed => conjunctionHitsMerged index none terms
  | .views views =>
    match (List.range index.segments.length).mapM (segmentHits views) with
    | .ok hits => hits.flatten
    | .error () => conjunctionHitsMerged index none terms

def residentCursor (list : PostingsList) : Option SegmentPostingsCursor :=
  match skipIter list.docIds with
  | .ok (some iter) => some (.ram iter list.freqs list.docIds.length)
  | _ => none

def residentConjunction (lists : List PostingsList) : List Nat :=
  match lists with
  | [] => []
  | driver :: others =>
    match others.mapM residentCursor with
    | none => materialisedConjunction lists
    | some cursors =>
      match cursors.mapM fun cursor => cursor.hold 0 with
      | .error () => []
      | .ok followers =>
        match leapfrog SegmentPostingsCursor.probe followers
            (driver.docIds.map fun docId => (docId, 0)) with
        | .ok hits => hits.map Prod.fst
        | .error () => []

def residentList (term : String × String) : Option PostingsList :=
  (index.active.terms.postingsWithBlockMetas term.1 term.2).filter fun list => !list.docIds.isEmpty

def residentHits (lists : List PostingsList) : List Nat :=
  match lists with
  | [first, second] =>
    match first.roaring, second.roaring with
    | some r0, some r1 => r0.intersectForEach r1
    | _, _ => residentConjunction lists
  | _ => residentConjunction lists

def conjunctionHitsInternal (terms : List (String × String)) : List Nat :=
  if terms.isEmpty then []
  else if index.postingsDiskBacked then conjunctionHitsDisk hash index terms
  else
    match terms.mapM (residentList index) with
    | none => []
    | some lists =>
      residentHits (lists.insertionSort fun a b => a.docIds.length ≤ b.docIds.length)

end Hits

variable (settings : Settings Digest) (mapping : IndexMapping) (index : DocumentIndex Digest)

def singleTerm (clause : String × String) : Option (String × String) :=
  match normalizedTermsForField settings.unicode clause.2 clause.1 mapping with
  | [term] => some (clause.1, term)
  | _ => none

def conjunctionLeapfrog (clauses : List (String × String)) : Option (List Nat) :=
  (clauses.mapM (singleTerm settings mapping)).map (conjunctionHitsInternal settings.hash index)

section Scores

inductive FusedConjunctionScoreMode where
  | should
  | must
deriving DecidableEq, Repr

def fusedBm25Contribution (score : Option ℚ) : FusedConjunctionScoreMode → ℚ
  | .should => (score.filter fun score => score ≠ 1).getD 0
  | .must => (score.filter fun score => score > 0).getD 1

structure FieldScoringStats where
  docCount : Nat
  avgDocLen : ℚ
  normsEnabled : Bool
  docLen : Nat → Option Nat

def avgDocLen (stats : DocumentIndex.AggregatedFieldStats) : Option ℚ :=
  if stats.docCount > 0 ∧ stats.totalTerms > 0 then some (stats.totalTerms / stats.docCount) else none

def fieldScoringStats (field : String) : Option FieldScoringStats := do
  let aggregated ← index.fieldStatsAggregated field
  let normsEnabled := mapping.normsEnabled field
  let avgDocLen ← if normsEnabled then avgDocLen aggregated else some 1
  return {
    docCount := aggregated.docCount
    avgDocLen
    normsEnabled
    docLen := if normsEnabled then index.docLen field else fun _ => none }

/- `bm25_score(..).ok()` of a document count, a document frequency, a term frequency, a document
length and an average length. -/
abbrev Bm25 := Nat → Nat → Nat → Nat → ℚ → Option ℚ

variable (bm25 : Bm25) (mode : FusedConjunctionScoreMode)

def termContrib (stats : FieldScoringStats) (docFreq docId freq : Nat) : ℚ :=
  if freq = 0 ∨ docFreq = 0 ∨ docFreq > stats.docCount then fusedBm25Contribution none mode
  else
    match if stats.normsEnabled then stats.docLen docId else some 1 with
    | none => fusedBm25Contribution none mode
    | some docLen =>
      fusedBm25Contribution (bm25 stats.docCount docFreq freq docLen stats.avgDocLen) mode

def finishSum (sum : ℚ) : ℚ := if sum > 0 then sum else 1

structure TermCtx where
  fieldStats : FieldScoringStats
  docIds : List Nat
  freqs : List Nat
  roaring : Option RoaringDocSet

def scoredToken (clause : String × String) : Option String :=
  match normalizedTermsForField settings.unicode clause.2 clause.1 mapping with
  | [token] =>
    if [token] = (mapping.analyzer clause.1).terms settings.unicode clause.2 then some token else none
  | _ => none

def residentClause (clause : String × String) : Except (Option (List (ℚ × Nat))) TermCtx :=
  match scoredToken settings mapping clause with
  | none => .error none
  | some token =>
    match index.active.terms.postingsWithBlockMetas clause.1 token with
    | none => .error (some [])
    | some list =>
      if list.docIds.isEmpty then .error (some [])
      else
        match fieldScoringStats mapping index clause.1 with
        | none => .error none
        | some fieldStats => .ok ⟨fieldStats, list.docIds, list.freqs, list.roaring⟩

def gallopProbe (follower : TermCtx × Nat) (docId : Nat) :
    Except Unit (Option Nat × TermCtx × Nat) :=
  let (term, cursor) := follower
  let cursor := cursor + gallopOffset (term.docIds.drop cursor) docId
  .ok (if term.docIds[cursor]? = some docId then some (term.freqs.getD cursor 0) else none,
    term, cursor)

def freqAt (term : TermCtx) (cursor docId : Nat) : Nat × Nat :=
  let cursor := cursor + gallopOffset (term.docIds.drop cursor) docId
  (if term.docIds[cursor]? = some docId then term.freqs.getD cursor 0 else 0, cursor)

def sweepFreqs (first second : TermCtx) : (c0 c1 : Nat) → List Nat → List (Nat × List Nat)
  | _, _, [] => []
  | c0, c1, docId :: rest =>
    let (f0, c0) := freqAt first c0 docId
    let (f1, c1) := freqAt second c1 docId
    (docId, [f0, f1]) :: sweepFreqs first second c0 c1 rest

def gallopFreqs (terms : List TermCtx) : List (Nat × List Nat) :=
  match terms with
  | [] => []
  | driver :: followers =>
    match leapfrog gallopProbe (followers.map fun term => (term, 0))
        (driver.docIds.zip driver.freqs) with
    | .ok hits => hits
    | .error () => []

/- The documents of the conjunction with the frequency of each term there, rarest first. -/
def residentFreqs (terms : List TermCtx) : List (Nat × List Nat) :=
  match terms with
  | [first, second] =>
    match first.roaring, second.roaring with
    | some r0, some r1 => sweepFreqs first second 0 0 (r0.intersectForEach r1)
    | _, _ => gallopFreqs terms
  | _ => gallopFreqs terms

def fusedConjunctionScoresResident (clauses : List (String × String)) : Option (List (ℚ × Nat)) :=
  match clauses.mapM (residentClause settings mapping index) with
  | .error answer => answer
  | .ok terms =>
    let terms := terms.insertionSort fun a b => a.docIds.length ≤ b.docIds.length
    some ((residentFreqs terms).map fun (docId, freqs) =>
      (finishSum (List.zipWith
        (fun term freq => termContrib bm25 mode term.fieldStats term.docIds.length docId freq)
        terms freqs).sum, docId))

def segmentedClause (clause : String × String) :
    Except (Option (List (ℚ × Nat))) (FieldScoringStats × SegmentedPostings) :=
  match scoredToken settings mapping clause with
  | none => .error none
  | some token =>
    match index.segmentedPostingsChecked settings.hash clause.1 token with
    | .error _ => .error none
    | .ok none => .error (some [])
    | .ok (some view) =>
      match fieldScoringStats mapping index clause.1 with
      | none => .error none
      | some fieldStats => .ok (fieldStats, view)

def frequencies (clauses : Nat) (order : List Nat) (freqs : List Nat) : List Nat :=
  (order.zip freqs).foldl (fun frequencies entry => frequencies.set entry.1 entry.2)
    (List.replicate clauses 0)

/- One segment: the cursors are walked rarest first, the scores summed in clause order. -/
def fusedSegment (terms : List (FieldScoringStats × SegmentedPostings)) (segmentIdx : Nat) :
    Except Unit (List (ℚ × Nat)) :=
  match cursorsAt (terms.map Prod.snd) segmentIdx with
  | none => .ok []
  | some cursors =>
    let sorted := cursors.zipIdx.insertionSort fun a b => a.1.localDf ≤ b.1.localDf
    (SegmentPostingsCursor.walk (sorted.map Prod.fst)).map fun hits =>
      hits.map fun (docId, freqs) =>
        (finishSum (List.zipWith
          (fun term freq => termContrib bm25 mode term.1 term.2.globalDf docId freq)
          terms (frequencies terms.length (sorted.map Prod.snd) freqs)).sum, docId)

def fusedConjunctionScoresDisk (clauses : List (String × String)) : Option (List (ℚ × Nat)) :=
  match clauses.mapM (segmentedClause settings mapping index) with
  | .error answer => answer
  | .ok terms =>
    match (List.range index.segments.length).mapM (fusedSegment bm25 mode terms) with
    | .ok scored => some scored.flatten
    | .error () => none

def fusedConjunctionScoresWithMode (clauses : List (String × String)) : Option (List (ℚ × Nat)) :=
  if clauses.isEmpty then none
  else if index.postingsDiskBacked then fusedConjunctionScoresDisk settings mapping index bm25 mode clauses
  else fusedConjunctionScoresResident settings mapping index bm25 mode clauses

end Scores

section Matches

structure MatchClause where
  field : String
  value : String
  requireAll : Bool
deriving DecidableEq, Repr

structure ClauseTokens where
  requireAll : Bool
  tokenDocIds : List (List Nat)

variable (read : String → String → Option (List Nat))

def clauseTokens (clause : MatchClause) : Except Unit ClauseTokens :=
  let found := (normalizedTermsForField settings.unicode clause.value clause.field mapping).map
    (read clause.field)
  if found.isEmpty then .error ()
  else if clause.requireAll && found.any Option.isNone then .error ()
  else if found.reduceOption.isEmpty then .error ()
  else .ok ⟨clause.requireAll, found.reduceOption⟩

namespace ClauseTokens

variable (tokens : ClauseTokens)

def estimate : Nat :=
  if tokens.requireAll then (tokens.tokenDocIds.map List.length).min?.getD 0
  else (tokens.tokenDocIds.map List.length).sum

def contains (docId : Nat) : Bool :=
  if tokens.requireAll then tokens.tokenDocIds.all fun docIds => docIds.contains docId
  else tokens.tokenDocIds.any fun docIds => docIds.contains docId

def docs : List Nat :=
  match tokens.tokenDocIds with
  | [] => []
  | [docIds] => docIds
  | first :: rest =>
    if tokens.requireAll then
      rest.foldl (fun met docIds => met.filter fun docId => (btreeSet docIds).contains docId)
        (btreeSet first)
    else btreeSet (first :: rest).flatten

end ClauseTokens

def keepLeast (best : Option (Nat × Nat)) (entry : Nat × Nat) : Option (Nat × Nat) :=
  match best with
  | none => some entry
  | some kept => if entry.1 < kept.1 then some entry else best

def leastIndex (keys : List Nat) : Nat := (keys.zipIdx.foldl keepLeast none).elim 0 Prod.snd

def conjunctionOfTokens (clauses : List ClauseTokens) : List Nat :=
  let driverIdx := leastIndex (clauses.map ClauseTokens.estimate)
  match clauses[driverIdx]? with
  | none => []
  | some driver =>
    driver.docs.filter fun docId =>
      clauses.zipIdx.all fun (clause, i) => i == driverIdx || clause.contains docId

def conjunctionOfMatchesWith (clauses : List MatchClause) : List Nat :=
  match clauses.mapM (clauseTokens settings mapping read) with
  | .error () => []
  | .ok tokens => conjunctionOfTokens tokens

def conjunctionOfMatchesResident : List MatchClause → List Nat :=
  conjunctionOfMatchesWith settings mapping fun field token =>
    (index.active.terms.postingsWithBlockMetas field token).map PostingsList.docIds

def conjunctionOfMatchesDisk : List MatchClause → List Nat :=
  conjunctionOfMatchesWith settings mapping fun field token =>
    (index.decodeFromSegment field token).map Prod.fst

def conjunctionOfMatches (clauses : List MatchClause) : Option (List Nat) :=
  if clauses.isEmpty then none
  else if index.postingsDiskBacked then some (conjunctionOfMatchesDisk settings mapping index clauses)
  else some (conjunctionOfMatchesResident settings mapping index clauses)

end Matches

end Surch.Api
