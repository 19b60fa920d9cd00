import Mathlib.Data.String.Basic
import Surch.Api.Hydration
import Surch.Api.Mappings
import Surch.Lib.Comparison

/-! `sort_scored_documents`: the comparison of two hits by the sort clauses of a request. Values of one
kind are ordered, values of different kinds tie. -/
namespace Surch.Api
open Surch.Lib Surch.Index

/- The finite floating-point numbers, of scores and of JSON numbers. -/
variable {Score : Type} [LinearOrder Score]

inductive SortOrder where
  | asc
  | desc
deriving DecidableEq, Repr

structure SortClause where
  field : String
  order : SortOrder
deriving DecidableEq, Repr

structure ScoredDocument (Score : Type) where
  doc : StoredDocument
  score : Score

/- The sub-fields whose analysed values are stored, by path and public identifier. -/
structure SubfieldProjections where
  byField : SortedMap String (SortedMap String String)

namespace SubfieldProjections

variable (projections : SubfieldProjections)

def isStoredSubfield (fieldPath : String) : Bool := (projections.byField.get? fieldPath).isSome

def value (fieldPath publicId : String) : Option Value := do
  let stored ← projections.byField.get? fieldPath
  (stored.get? publicId).map Value.string

end SubfieldProjections

def subfieldNormalizer (mapping : IndexMapping) (path : String) : Option AnalyzerName := do
  let (parent, sub) ← rsplitOnce path '.'
  let parent ← mapping.fields.get? parent
  let sub ← parent.fields.lookup sub
  sub.normalizer

def SortOrder.direct : SortOrder → Ordering → Ordering
  | .asc, ordering => ordering
  | .desc, ordering => ordering.swap

def compareScore (left right : Score) (order : SortOrder) : Ordering := order.direct (compare left right)

def compareNumbers : Option Score → Option Score → Ordering
  | none, none => .eq
  | none, some _ => .lt
  | some _, none => .gt
  | some left, some right => compare left right

section Comparator

/- `Number::as_f64`, by what the number prints as. -/
variable (asF64 : String → Option Score)

def compareValues : Value → Value → Ordering
  | .number left _, .number right _ => compareNumbers (asF64 left) (asF64 right)
  | .string left, .string right => compare left right
  | .bool left, .bool right => compare left right
  | _, _ => .eq

/- A missing value goes last in both directions. -/
def compareField (left right : Option Value) (order : SortOrder) : Ordering :=
  match left, right with
  | none, none => .eq
  | none, some _ => .gt
  | some _, none => .lt
  | some left, some right => order.direct (compareValues asF64 left right)

variable (unicode : Unicode)

def normalizeSortValue (value : Value) (analyzer : AnalyzerName) : Value :=
  match value with
  | .string text => .string ((analyzer.terms unicode text).headD "")
  | other => other

/- The field itself, or else the parent of a dotted path. -/
def lookupSortValue (source : Value) (field : String) : Option Value := do
  let object ← source.asObject
  (object.lookup field).or do
    let (parent, _) ← rsplitOnce field '.'
    object.lookup parent

def sortValue (clause : SortClause) (normalizer : Option AnalyzerName)
    (projections : SubfieldProjections) (document : ScoredDocument Score) : Option Value :=
  if projections.isStoredSubfield clause.field then projections.value clause.field document.doc.id
  else
    let value := lookupSortValue document.doc.source clause.field
    match normalizer with
    | some name => value.map (normalizeSortValue unicode · name)
    | none => value

def compareSortClause (clause : SortClause) (normalizer : Option AnalyzerName)
    (projections : SubfieldProjections) (left right : ScoredDocument Score) : Ordering :=
  if clause.field = "_score" then compareScore left.score right.score clause.order
  else
    compareField asF64 (sortValue unicode clause normalizer projections left)
      (sortValue unicode clause normalizer projections right) clause.order

/- The comparison of each clause; its normalizer is looked up once. -/
def clauseComparisons (clauses : List SortClause) (mapping : Option IndexMapping)
    (projections : SubfieldProjections) : List (ScoredDocument Score → ScoredDocument Score → Ordering) :=
  clauses.map fun clause =>
    compareSortClause asF64 unicode clause
      (mapping.bind fun mapping => subfieldNormalizer mapping clause.field) projections

/- Without clauses the better score goes first, if there are scores. -/
def compareScored (clauses : List SortClause) (scoringEnabled : Bool)
    (mapping : Option IndexMapping) (projections : SubfieldProjections)
    (left right : ScoredDocument Score) : Ordering :=
  if clauses.isEmpty then
    if scoringEnabled then compare right.score left.score else .eq
  else Comparison.inTurn (clauseComparisons asF64 unicode clauses mapping projections) left right

def sortScoredDocuments (documents : List (ScoredDocument Score)) (clauses : List SortClause)
    (scoringEnabled : Bool) (mapping : Option IndexMapping) (projections : SubfieldProjections) :
    List (ScoredDocument Score) :=
  if clauses.isEmpty && !scoringEnabled then documents
  else
    documents.mergeSort fun left right =>
      compareScored asF64 unicode clauses scoringEnabled mapping projections left right ≠ .gt

end Comparator

end Surch.Api
