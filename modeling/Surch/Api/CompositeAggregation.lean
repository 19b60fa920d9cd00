import Mathlib.Data.List.Lex
import Surch.Api.Sorting
import Surch.Lib.Paging

/-! `compute_composite_aggregation`: the documents counted by a tuple of values, and one page of the
tuples in their order, behind a cursor. -/
namespace Surch.Api
open Surch.Lib Surch.Index

section Dates

inductive CalendarInterval where
  | day
  | week
  | month
  | year
deriving DecidableEq, Repr

def daysFromCivil (year month day : Int) : Int :=
  let y := if month ≤ 2 then year - 1 else year
  let era := (if y ≥ 0 then y else y - 399).tdiv 400
  let yoe := y - era * 400
  let doy := (153 * (if month > 2 then month - 3 else month + 9) + 2) / 5 + day - 1
  let doe := yoe * 365 + yoe / 4 - yoe / 100 + doy
  era * 146097 + doe - 719468

def civilFromDays (days : Int) : Int × Int × Int :=
  let z := days + 719468
  let era := (if z ≥ 0 then z else z - 146096).tdiv 146097
  let doe := z - era * 146097
  let yoe := (doe - doe / 1460 + doe / 36524 - doe / 146096) / 365
  let y := yoe + era * 400
  let doy := doe - (365 * yoe + yoe / 4 - yoe / 100)
  let mp := (5 * doy + 2) / 153
  let d := doy - (153 * mp + 2) / 5 + 1
  let m := if mp < 10 then mp + 3 else mp - 9
  (if m ≤ 2 then y + 1 else y, m, d)

def weekAnchorMonday (year month day : Int) : Int × Int × Int :=
  let z := daysFromCivil year month day
  civilFromDays (z - (z + 3).emod 7)

def paddedInt (width : Nat) (n : Int) : String :=
  if n < 0 then String.ofList ('-' :: zeroPadded (width - 1) n.natAbs)
  else String.ofList (zeroPadded width n.natAbs)

def bucketKeyForDate (value : Value) (interval : CalendarInterval) : Option String := do
  let text ← value.asStr
  let digits := text.toList
  if digits.length ≠ 8 ∨ ¬ digits.all Char.isDigit then none
  else
    let year := Nat.ofDigitChars 10 (digits.take 4) 0
    let month := Nat.ofDigitChars 10 ((digits.drop 4).take 2) 0
    let day := Nat.ofDigitChars 10 (digits.drop 6) 0
    if ¬ (1 ≤ month ∧ month ≤ 12) ∨ ¬ (1 ≤ day ∧ day ≤ 31) then none
    else
      match interval with
      | .day => return paddedInt 4 year ++ paddedInt 2 month ++ paddedInt 2 day
      | .month => return paddedInt 4 year ++ paddedInt 2 month ++ "01"
      | .year => return paddedInt 4 year ++ "0101"
      | .week =>
        let (anchorYear, anchorMonth, anchorDay) := weekAnchorMonday year month day
        return paddedInt 4 anchorYear ++ paddedInt 2 anchorMonth ++ paddedInt 2 anchorDay

example : bucketKeyForDate (.string "20260717") .week = some "20260713" := by decide +kernel

end Dates

section Keys

inductive TermsKey where
  | bool (value : Bool)
  | number (text : String)
  | string (value : String)
  | other (text : String)
deriving DecidableEq, Repr

namespace TermsKey

def rank : TermsKey → Nat ×ₗ String
  | .bool value => toLex (0, if value then "1" else "0")
  | .number text => toLex (1, text)
  | .string value => toLex (2, value)
  | .other text => toLex (3, text)

theorem rank_injective : Function.Injective rank := by
  intro x y same
  obtain ⟨kinds, contents⟩ := Prod.ext_iff.mp (toLex.injective same)
  cases x with
  | bool value =>
    cases y with
    | bool other => cases value <;> cases other <;> first | rfl | (exact absurd contents (by decide))
    | number | string | other => cases kinds
  | number text =>
    cases y with
    | number => exact congrArg number contents
    | bool | string | other => cases kinds
  | string value =>
    cases y with
    | string => exact congrArg string contents
    | bool | number | other => cases kinds
  | other text =>
    cases y with
    | other => exact congrArg other contents
    | bool | number | string => cases kinds

/- The derived order: by constructor, then by content. -/
instance : LinearOrder TermsKey := LinearOrder.lift' rank rank_injective

def fromValue (serde : Serde) : Value → TermsKey
  | .bool value => .bool value
  | .number text _ => .number text
  | .string value => .string value
  | value => .other (serde.encode value)

end TermsKey

end Keys

section Composite

inductive CompositeSourceKind where
  | terms (field : String)
  | dateHistogram (field : String) (calendarInterval : CalendarInterval)
deriving DecidableEq, Repr

structure CompositeSource where
  name : String
  kind : CompositeSourceKind
deriving DecidableEq, Repr

structure AggBucket where
  key : Value
  keyAsString : Option String
  docCount : Nat

/- `AggResult::Composite`. -/
structure CompositeResult where
  buckets : List AggBucket
  afterKey : Option (SortedMap String Value)

variable {Score : Type} (serde : Serde)

def aggregationValue (scored : ScoredDocument Score) (field : String)
    (projections : SubfieldProjections) : Option Value :=
  if projections.isStoredSubfield field then projections.value field scored.doc.id
  else lookupSortValue scored.doc.source field

def Value.isNull : Value → Bool
  | .null => true
  | _ => false

/- An array stands for its first element that is not null. -/
def compositeScalar : Value → Option Value
  | .array items => items.find? fun item => !item.isNull
  | .null => none
  | value => some value

def compositeValue (projections : SubfieldProjections) (scored : ScoredDocument Score)
    (source : CompositeSource) : Option Value :=
  match source.kind with
  | .terms field => do
    let value ← aggregationValue scored field projections
    compositeScalar value
  | .dateHistogram field interval => do
    let value ← aggregationValue scored field projections
    let scalar ← compositeScalar value
    (bucketKeyForDate scalar interval).map Value.string

def compositeValues (sources : List CompositeSource) (projections : SubfieldProjections)
    (scored : ScoredDocument Score) : Option (List Value) :=
  sources.mapM (compositeValue projections scored)

abbrev CompositeCounts := SortedMap (List TermsKey) (List Value × Nat)

def countComposite (sources : List CompositeSource) (projections : SubfieldProjections)
    (counts : CompositeCounts) (scored : ScoredDocument Score) : CompositeCounts :=
  match compositeValues sources projections scored with
  | none => counts
  | some values =>
    counts.upsert (values.map (TermsKey.fromValue serde)) fun entry =>
      match entry with
      | some (first, docCount) => (first, docCount + 1)
      | none => (values, 1)

def cursorTerms (sources : List CompositeSource) (cursor : SortedMap String Value) : List TermsKey :=
  sources.map fun source => .fromValue serde ((cursor.get? source.name).getD .null)

def keyObject (sources : List CompositeSource) (values : List Value) : SortedMap String Value :=
  (sources.zip values).foldl (fun object (source, value) => object.upsert source.name fun _ => value)
    .empty

def bucketOf (sources : List CompositeSource) (entry : List TermsKey × List Value × Nat) : AggBucket where
  key := .object (keyObject sources entry.2.1).entries
  keyAsString := none
  docCount := entry.2.2

/- `map.iter().collect()` of a key that is an object. -/
def afterKeyOf (bucket : AggBucket) : Option (SortedMap String Value) :=
  match bucket.key with
  | .object entries =>
    some (entries.foldl (fun cursor (name, value) => cursor.upsert name fun _ => value) .empty)
  | _ => none

def isAfter (sources : List CompositeSource) (after : Option (SortedMap String Value))
    (entry : List TermsKey × List Value × Nat) : Bool :=
  match after.map (cursorTerms serde sources) with
  | some cursor => cursor < entry.1
  | none => true

def computeCompositeAggregation (documents : List (ScoredDocument Score))
    (sources : List CompositeSource) (size : Nat) (after : Option (SortedMap String Value))
    (projections : SubfieldProjections) : CompositeResult :=
  let counts := documents.foldl (countComposite serde sources projections) .empty
  let filtered := counts.entries.filter (isAfter serde sources after)
  let total := filtered.length
  let buckets := (filtered.take size).map (bucketOf sources)
  { buckets
    afterKey := if buckets.length = size ∧ total > size then buckets.getLast?.bind afterKeyOf else none }

end Composite

end Surch.Api
