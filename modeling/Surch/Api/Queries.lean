import Mathlib.Data.Finset.Sort
import Surch.Api.Conjunctions
import Surch.Index.PrefixScan

/-! Queries: the candidates their postings give, and the shapes that are scored while they are
resolved. -/
namespace Surch.Api
open Surch.Lib Surch.Postings Surch.Index

variable {Digest : Type}

inductive MatchOperator where
  | or
  | and
deriving DecidableEq, Repr

inductive ScoreMode where
  | multiply | sum | avg | first | min | max
deriving DecidableEq, Repr

inductive BoostMode where
  | multiply | sum | avg | replace | min | max
deriving DecidableEq, Repr

/- A query, over the type of the scoring functions. Of the clauses that only filter documents the
field is kept. -/
inductive SearchQuery (F : Type) where
  | matchAll (boost : ℚ)
  | matchField (field value : String) (operator : MatchOperator)
  | matchPhrase (field value : String)
  | term (field value : String)
  | bool (must filter mustNot should : List (SearchQuery F)) (minimumShouldMatch : Nat) (boost : ℚ)
  | functionScore (inner : SearchQuery F) (boost : ℚ) (functions : List F) (scoreMode : ScoreMode)
      (boostMode : BoostMode)
  | fuzzy (field value : String)
  | range (field : String)
  | existsField (field : String)
  | terms (field : String) (values : List String)
  | prefixField (field value : String)
  | wildcard (field pattern : String)
  | multiMatch (query : String) (fields : List String) (operator : MatchOperator)
  | geoDistance (field : String)
  | geoBoundingBox (field : String)
  | geoPolygon (field : String)

namespace SearchQuery

variable {F : Type}

mutual

def reduceDecesConjunctionInto : SearchQuery F → Option (List (String × String))
  | .functionScore inner boost functions _ _ =>
    if functions.isEmpty ∧ boost = 1 then inner.reduceDecesConjunctionInto else none
  | .bool must filter mustNot should minimumShouldMatch boost =>
    if boost ≠ 1 ∨ !mustNot.isEmpty ∨ !filter.isEmpty then none
    else if should.isEmpty then
      match must with
      | [clause] => clause.reduceDecesConjunctionInto
      | _ => none
    else if must.isEmpty ∧ minimumShouldMatch = should.length then reduceAll should
    else none
  | .matchField field value _ => some [(field, value)]
  | _ => none

def reduceAll : List (SearchQuery F) → Option (List (String × String))
  | [] => some []
  | clause :: rest => do
    let leaves ← clause.reduceDecesConjunctionInto
    let others ← reduceAll rest
    return leaves ++ others

end

def reduceDecesConjunction (query : SearchQuery F) : Option (List (String × String)) :=
  query.reduceDecesConjunctionInto.filter fun leaves => !leaves.isEmpty

end SearchQuery

section Candidates

variable {F : Type} [DecidableEq Digest] (settings : Settings Digest) (mapping : IndexMapping)
  (index : DocumentIndex Digest)

def firstTerm (analyzer : AnalyzerName) (text : String) : String :=
  (analyzer.terms settings.unicode text).headD ""

def termDocIds (field term : String) : List Nat :=
  if index.postingsDiskBacked then ((index.decodeFromSegment field term).map Prod.fst).getD []
  else ((index.active.terms.postings field term).map Prod.fst).getD []

def termHitsInternal (field value : String) : List Nat :=
  if isBlank field || value.isEmpty then []
  else
    let token := firstTerm settings (mapping.analyzer field) value
    if token.isEmpty then [] else termDocIds index field token

def matchLoop (field : String) (requireAllTerms : Bool) :
    Option (List Nat) → List String → Option (List Nat)
  | met, [] => met
  | met, term :: rest =>
    let current := btreeSet (termDocIds index field term)
    let met :=
      match met with
      | none => current
      | some previous =>
        if requireAllTerms then previous.filter fun docId => current.contains docId
        else btreeSet (previous ++ current)
    if requireAllTerms && met.isEmpty then some met
    else matchLoop field requireAllTerms (some met) rest

def matchHitsInternal (field value : String) (requireAllTerms : Bool) : List Nat :=
  if isBlank field || value.isEmpty then []
  else
    match normalizedTermsForField settings.unicode value field mapping with
    | [] => []
    | [term] => termDocIds index field term
    | terms => (matchLoop index field requireAllTerms none terms).getD []

def termPrefixDocIds (field start : String) : List Nat := (index.termPrefixDocIds field start).sort (· ≤ ·)

def prefixHitsInternal (field value : String) : Option (List Nat) :=
  if isBlank field || value.isEmpty then none
  else do
    let fieldMapping ← mapping.fields.get? field
    let normalized := firstTerm settings (mapping.analyzer field) value
    match fieldMapping.indexPrefixes with
    | some bounds =>
      if normalized.isEmpty then none
      else if normalized.length < bounds.minChars ∨ normalized.length > bounds.maxChars then none
      else
        some ((((index.prefixPostings.get? field).bind fun prefixes => prefixes.get? normalized).map
          fun docIds => docIds.sort (· ≤ ·)).getD [])
    | none =>
      if fieldMapping.fieldType = .keyword ∨ fieldMapping.fieldType = .date then
        if normalized.isEmpty then none else some (termPrefixDocIds index field normalized)
      else none

def flatPair : SearchQuery F → Option (String × String)
  | .matchField field value _ | .term field value => some (field, value)
  | _ => none

def flatMatch : SearchQuery F → Option MatchClause
  | .matchField field value operator => some ⟨field, value, operator = .and⟩
  | _ => none

def requiredClauses (must filter should : List (SearchQuery F)) (minimumShouldMatch : Nat) :
    Option (List (SearchQuery F)) :=
  if should.isEmpty then some (must ++ filter)
  else if minimumShouldMatch = should.length then some (must ++ filter ++ should)
  else none

/- Two direct clauses or more are intersected without their candidate sets. -/
def flatCandidates (required : List (SearchQuery F)) : Option (List Nat) := do
  let pairs ← required.mapM flatPair
  if pairs.length < 2 then none
  else
    match conjunctionLeapfrog settings mapping index pairs with
    | some ids => some (btreeSet ids)
    | none => do
      let clauses ← required.mapM flatMatch
      let ids ← conjunctionOfMatches settings mapping index clauses
      return btreeSet ids

def intersectSets : Option (List Nat) → List (List Nat) → Option (List Nat)
  | met, [] => met
  | met, current :: rest =>
    let met :=
      match met with
      | some previous => previous.filter fun docId => current.contains docId
      | none => current
    if met.isEmpty then some met else intersectSets (some met) rest

/- A clause without candidates does not restrict; the `should` clauses do when each has some. -/
def boolCandidates (required should : List (Option (List Nat))) (minimumShouldMatch : Nat) :
    Option (List Nat) :=
  let sets := required.reduceOption
  let shouldSets := should.reduceOption
  let restricting := !should.isEmpty && minimumShouldMatch ≥ 1 && shouldSets.length == should.length
  let sets :=
    if restricting then
      sets ++ if minimumShouldMatch = should.length then shouldSets else [btreeSet shouldSets.flatten]
    else sets
  intersectSets none (sets.insertionSort fun a b => a.length ≤ b.length)

mutual

def postingCandidateIds : SearchQuery F → Option (List Nat)
  | .term field value => some (btreeSet (termHitsInternal settings mapping index field value))
  | .matchField field value operator =>
    some (btreeSet (matchHitsInternal settings mapping index field value (operator = .and)))
  | .prefixField field value => (prefixHitsInternal settings mapping index field value).map btreeSet
  | .multiMatch query fields operator =>
    some (btreeSet (fields.flatMap fun field =>
      matchHitsInternal settings mapping index field query (operator = .and)))
  | .bool must filter _ should minimumShouldMatch _ =>
    match (requiredClauses must filter should minimumShouldMatch).bind
        (flatCandidates settings mapping index) with
    | some ids => some ids
    | none => boolCandidates (candidateSets must ++ candidateSets filter) (candidateSets should)
        minimumShouldMatch
  | .functionScore inner _ _ _ _ => postingCandidateIds inner
  | _ => none

def candidateSets : List (SearchQuery F) → List (Option (List Nat))
  | [] => []
  | query :: rest => postingCandidateIds query :: candidateSets rest

end

end Candidates

section Scoring

structure TermScoringView where
  docIds : List Nat
  freqs : List Nat

def TermScoringView.docFreq (view : TermScoringView) : Nat := view.docIds.length

/- On disk a term without postings has no view, in memory it has an empty one. -/
def termScoringView (index : DocumentIndex Digest) (field token : String) : Option TermScoringView :=
  if index.postingsDiskBacked then
    (index.decodeFromSegment field token).map fun v => ⟨v.1, v.2⟩
  else
    match index.active.terms.postingsWithBlockMetas field token with
    | some list => some ⟨list.docIds, list.freqs⟩
    | none => some ⟨[], []⟩

end Scoring

end Surch.Api
