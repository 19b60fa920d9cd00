import Surch.Lib.Pace
import Surch.Postings.DictionaryReads

/-! `surch_search::execution`: a conjunction of term queries. The rarest list is walked document by
document, and the other lists are asked for each through their skip iterators. -/
namespace Surch.Search
open Surch.Lib Surch.Codec Surch.Postings

structure TermQuery where
  field : String
  value : String
deriving DecidableEq, Repr

inductive Query where
  | term (query : TermQuery)
  | fuzzy (field value : String)
  | boolean (must : List Query)

/- `BooleanQuery::new` rejects an empty list of clauses. -/
structure BooleanQuery where
  must : List Query
  nonempty : must ≠ []

/- `ε` stands for the errors of `bm25_score`. -/
inductive TermQueryExecutionError (ε : Type) where
  | missingDocLen (docId : Nat)
  | blockSkip (err : PostingsBlockError)
  | bm25 (err : ε)
deriving DecidableEq, Repr

inductive BooleanQueryExecutionError (ε : Type) where
  | unsupportedMustClause (clauseIndex : Nat)
  | term (err : TermQueryExecutionError ε)
deriving DecidableEq, Repr

structure LeapfrogClause where
  postings : PostingsList
  docFreq : Nat
  iter : PostingsBlockSkipIter

/- `bm25Score` is `bm25_score` under the executor's configuration, document count and average
length. -/
structure BooleanQueryExecutor (Digest ε Score : Type) where
  dictionary : TermDictionary Digest
  docLenByDocId : SortedMap Nat Nat
  bm25Score : (docFreq termFreq docLen : Nat) → Except ε Score

def advanceFollowers (docId : Nat) : List LeapfrogClause → Bool × List LeapfrogClause
  | [] => (true, [])
  | follower :: rest =>
    let (landed, iter) := follower.iter.advanceTo docId
    let follower := { follower with iter }
    match landed with
    | none => (false, follower :: rest)
    | some found =>
      if found ≠ docId then (false, follower :: rest)
      else
        let (allMatch, rest) := advanceFollowers docId rest
        (allMatch, follower :: rest)

def requireTerms {ε : Type} (clauseIndex : Nat) :
    List Query → Except (BooleanQueryExecutionError ε) (List TermQuery)
  | [] => .ok []
  | .term query :: rest => do
    let queries ← requireTerms (clauseIndex + 1) rest
    return query :: queries
  | _ :: _ => .error (.unsupportedMustClause clauseIndex)

namespace BooleanQueryExecutor

variable {Digest ε Score : Type} (executor : BooleanQueryExecutor Digest ε Score)

def openClause (query : TermQuery) :
    Except (TermQueryExecutionError ε) (Option LeapfrogClause) :=
  match executor.dictionary.postingsWithBlockMetas query.field query.value with
  | none => .ok none
  | some postings =>
    let docFreq := postings.docIds.length
    if docFreq = 0 then .ok none
    else
      match skipIter postings.docIds with
      | .ok (some iter) => .ok (some { postings, docFreq, iter })
      | .ok none => .ok none
      | .error err => .error (.blockSkip err)

def openClauses :
    List TermQuery → Except (TermQueryExecutionError ε) (Option (List LeapfrogClause))
  | [] => .ok (some [])
  | query :: queries =>
    match executor.openClause query with
    | .error err => .error err
    | .ok none => .ok none
    | .ok (some clause) => (openClauses queries).map fun clauses => clauses.map (clause :: ·)

/- `score_posting` reads the document frequency of its clause only. -/
def scorePosting (docFreq docId freq : Nat) : Except (TermQueryExecutionError ε) Score :=
  match executor.docLenByDocId.get? docId with
  | none => .error (.missingDocLen docId)
  | some docLen =>
    match executor.bm25Score docFreq freq docLen with
    | .error err => .error (.bm25 err)
    | .ok score => .ok score

variable [Zero Score] [Add Score]

/- The frequency is read right before the follower's position. -/
def addFollowers (docId : Nat) (summed : Score) :
    List LeapfrogClause → Except (TermQueryExecutionError ε) Score
  | [] => .ok summed
  | follower :: rest => do
    let idx := follower.iter.position - 1
    let score ← executor.scorePosting follower.docFreq docId (follower.postings.freqs.getD idx 0)
    addFollowers docId (summed + score) rest

def walkDriver (docFreq : Nat) :
    List (Nat × Nat) → List LeapfrogClause → Except (TermQueryExecutionError ε) (List (Nat × Score))
  | [], _ => .ok []
  | (docId, driverFreq) :: rest, followers =>
    let (allMatch, followers) := advanceFollowers docId followers
    if allMatch = false then walkDriver docFreq rest followers
    else do
      let own ← executor.scorePosting docFreq docId driverFreq
      let summed ← executor.addFollowers docId (0 + own) followers
      let out ← walkDriver docFreq rest followers
      return (docId, summed) :: out

def runLeapfrog :
    List LeapfrogClause → Except (TermQueryExecutionError ε) (List (Nat × Score))
  | [] => .ok []
  | driver :: followers =>
    executor.walkDriver driver.docFreq (driver.postings.docIds.zip driver.postings.freqs) followers

/- The clauses run by ascending document frequency; the sort is stable. -/
def leapfrog (queries : List TermQuery) :
    Except (TermQueryExecutionError ε) (List (Nat × Score)) :=
  match executor.openClauses queries with
  | .error err => .error err
  | .ok none => .ok []
  | .ok (some clauses) => executor.runLeapfrog (clauses.mergeSort fun a b => a.docFreq ≤ b.docFreq)

/-- What `execute` hands to its collector. -/
def execute (query : BooleanQuery) : Except (BooleanQueryExecutionError ε) (List (Nat × Score)) :=
  match requireTerms 0 query.must with
  | .error err => .error err
  | .ok queries => (executor.leapfrog queries).mapError .term

end BooleanQueryExecutor

end Surch.Search
