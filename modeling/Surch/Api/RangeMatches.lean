import Surch.Api.DateMath
import Surch.Api.Sorting
import Surch.Api.TemplateRoutes

/-! `range_field_matches`: the stored value against the bounds of a range query. The field's type and the
kind of the stored value select one of three comparisons; a date stops at a bound that is no date, while
numbers and texts pass over the bounds of the other kind. -/
namespace Surch.Api
open Surch.Lib Surch.Index Surch.Postings Surch.Slm

/- The finite floating-point numbers. -/
variable {Score : Type}

section Bounds

inductive RangeValue (Score : Type) where
  | number (n : Score)
  | text (s : String)
deriving DecidableEq

inductive RangeOp where
  | gt
  | gte
  | lt
  | lte
deriving DecidableEq

structure RangeBounds (Score : Type) where
  gt : Option (RangeValue Score)
  gte : Option (RangeValue Score)
  lt : Option (RangeValue Score)
  lte : Option (RangeValue Score)

def RangeBounds.get (bounds : RangeBounds Score) : RangeOp → Option (RangeValue Score)
  | .gt => bounds.gt
  | .gte => bounds.gte
  | .lt => bounds.lt
  | .lte => bounds.lte

def RangeBounds.without (bounds : RangeBounds Score) : RangeOp → RangeBounds Score
  | .gt => { bounds with gt := none }
  | .gte => { bounds with gte := none }
  | .lt => { bounds with lt := none }
  | .lte => { bounds with lte := none }

def RangeOp.excludes {α : Type} [LinearOrder α] : RangeOp → α → α → Bool
  | .gt, value, threshold => value ≤ threshold
  | .gte, value, threshold => value < threshold
  | .lt, value, threshold => value ≥ threshold
  | .lte, value, threshold => value > threshold

def RangeValue.asNumber : RangeValue Score → Option Score
  | .number n => some n
  | .text _ => none

def RangeValue.asText : RangeValue Score → Option String
  | .number _ => none
  | .text s => some s

def inBoundsFrom (stops : RangeOp → RangeValue Score → Except Panic Bool) (bounds : RangeBounds Score) :
    List RangeOp → Except Panic Bool
  | [] => .ok true
  | op :: rest =>
    match bounds.get op with
    | none => inBoundsFrom stops bounds rest
    | some bound => do
      if ← stops op bound then return false
      inBoundsFrom stops bounds rest

def inBounds (stops : RangeOp → RangeValue Score → Except Panic Bool) (bounds : RangeBounds Score) :
    Except Panic Bool :=
  inBoundsFrom stops bounds [.gt, .gte, .lt, .lte]

def kindStops {α : Type} [LinearOrder α] (own : RangeValue Score → Option α) (value : α) (op : RangeOp)
    (bound : RangeValue Score) : Except Panic Bool :=
  match own bound with
  | some threshold => .ok (op.excludes value threshold)
  | none => .ok false

def numericInBounds [LinearOrder Score] (value : Score) (bounds : RangeBounds Score) : Except Panic Bool :=
  inBounds (kindStops RangeValue.asNumber value) bounds

def textInBounds (value : String) (bounds : RangeBounds Score) : Except Panic Bool :=
  inBounds (kindStops RangeValue.asText value) bounds

end Bounds

section Dates

/- What chrono reads of a text and of a number; the date is that of UTC. -/
structure Chrono where
  parseYmd : String → Option NaiveDate
  fromTimestampMillis : Int → Option NaiveDate
  fromTimestamp : Int → Option NaiveDate

variable (checks : Bool) (chrono : Chrono) (today : NaiveDate)

def firstFormat (format : List Char) : List Char :=
  match format with
  | [] => []
  | '|' :: '|' :: _ => []
  | c :: rest => c :: firstFormat rest

def parseDateValue (text format : String) : Except Panic (Option NaiveDate) :=
  let text := trimmed isWhitespace text.toList
  if ['n', 'o', 'w'] <+: text then parseDateMath checks (String.ofList text) today
  else
    let fmt := String.ofList (trimmed isWhitespace (firstFormat format.toList))
    if fmt = "epoch_millis" then .ok ((parseI64 text).bind chrono.fromTimestampMillis)
    else if fmt = "epoch_second" then .ok ((parseI64 text).bind chrono.fromTimestamp)
    else .ok (chrono.parseYmd (String.ofList text))

/- `n as i64`. -/
variable (asI64 : Score → Int)

def rangeValueToDate (value : RangeValue Score) (format : String) : Except Panic (Option NaiveDate) :=
  match value with
  | .number n => parseDateValue checks chrono today (toString (asI64 n)) format
  | .text s => parseDateValue checks chrono today s format

def dateStops (value : NaiveDate) (format : String) (op : RangeOp) (bound : RangeValue Score) :
    Except Panic Bool := do
  match ← rangeValueToDate checks chrono today asI64 bound format with
  | some date => return op.excludes value.date.number date.date.number
  | none => return true

def dateInBounds (value : NaiveDate) (bounds : RangeBounds Score) (format : String) :
    Except Panic Bool :=
  inBounds (dateStops checks chrono today asI64 value format) bounds

def dateFormatOf (mapping : IndexMapping) (field : String) : Option String := do
  let fieldMapping ← mapping.resolveField field
  if fieldMapping.fieldType = .date then some (fieldMapping.dateFormat.getD defaultDateFormat) else none

def storedDate (value : Value) (format : String) : Except Panic (Option NaiveDate) :=
  match value with
  | .string text => parseDateValue checks chrono today text format
  | other =>
    match other.asI64 with
    | some n => parseDateValue checks chrono today (toString n) format
    | none => .ok none

/- `Value::as_f64`, by what the number prints as. -/
variable [LinearOrder Score] (asF64 : String → Option Score)

def plainInBounds (value : Value) (bounds : RangeBounds Score) : Except Panic Bool :=
  match value with
  | .number printed _ =>
    match asF64 printed with
    | some number => numericInBounds number bounds
    | none => .ok false
  | .string text => textInBounds text bounds
  | _ => .ok false

def rangeFieldMatches (source : Value) (field : String) (bounds : RangeBounds Score)
    (mapping : IndexMapping) : Except Panic Bool :=
  match source.asObject.bind (List.lookup field) with
  | none => .ok false
  | some fieldValue =>
    match dateFormatOf mapping field with
    | none => plainInBounds asF64 fieldValue bounds
    | some format => do
      match ← storedDate checks chrono today fieldValue format with
      | some valueDate => dateInBounds checks chrono today asI64 valueDate bounds format
      | none => plainInBounds asF64 fieldValue bounds

end Dates

section Restriction

variable [LinearOrder Score] (checks : Bool) (chrono : Chrono) (today : NaiveDate) (asI64 : Score → Int)
  (asF64 : String → Option Score)

inductive Comparand (Score : Type) where
  | date (value : NaiveDate) (format : String)
  | number (value : Score)
  | text (value : String)

def plainComparand (value : Value) : Option (Comparand Score) :=
  match value with
  | .number printed _ => (asF64 printed).map .number
  | .string text => some (.text text)
  | _ => none

def comparandOf (source : Value) (field : String) (mapping : IndexMapping) : Option (Comparand Score) :=
  (source.asObject.bind (List.lookup field)).bind fun fieldValue =>
    match dateFormatOf mapping field with
    | none => plainComparand asF64 fieldValue
    | some format =>
      match storedDate checks chrono today fieldValue format with
      | .ok (some value) => some (.date value format)
      | .ok none => plainComparand asF64 fieldValue
      | .error _ => none

/- How a number may be meant by a text bound, and a text by a numeric one. -/
structure BoundReading (Score : Type) where
  numberOf : String → Option Score
  textOf : Score → Option String

namespace BoundReading

variable (reading : BoundReading Score)

def asNumber : RangeValue Score → Option Score
  | .number n => some n
  | .text s => reading.numberOf s

def asText : RangeValue Score → Option String
  | .number n => reading.textOf n
  | .text s => some s

end BoundReading

def Outside {α : Type} [LinearOrder α] (op : RangeOp) (value : α) (threshold : Option α) : Prop :=
  ∀ t ∈ threshold, op.excludes value t = true

def Violates (reading : BoundReading Score) (op : RangeOp) (bound : RangeValue Score) :
    Comparand Score → Prop
  | .date value format =>
    ∀ threshold, rangeValueToDate checks chrono today asI64 bound format = .ok threshold →
      Outside op value.date.number (threshold.map fun date => date.date.number)
  | .number value => Outside op value (reading.asNumber bound)
  | .text value => Outside op value (reading.asText bound)

/- Fewer bounds match whatever more of them do, and no bound that the value violates lets it pass. -/
def RangeRestricts (reading : BoundReading Score) (source : Value) (field : String)
    (bounds : RangeBounds Score) (mapping : IndexMapping) : Prop :=
  (rangeFieldMatches checks chrono today asI64 asF64 source field bounds mapping = .ok true →
    ∀ op, rangeFieldMatches checks chrono today asI64 asF64 source field (bounds.without op) mapping =
      .ok true) ∧
  ∀ comparand ∈ comparandOf checks chrono today asF64 source field mapping,
    ∀ op, ∀ bound ∈ bounds.get op, Violates checks chrono today asI64 reading op bound comparand →
      rangeFieldMatches checks chrono today asI64 asF64 source field bounds mapping = .ok false

/- A bound of the value's own kind rules it out, or none of the other kind does. -/
def KindHeeded {α : Type} [LinearOrder α] (own read : RangeValue Score → Option α) (value : α)
    (bounds : RangeBounds Score) : Prop :=
  (∃ op, ∃ bound ∈ bounds.get op, ∃ threshold ∈ own bound, op.excludes value threshold = true) ∨
    ∀ op, ∀ bound ∈ bounds.get op, own bound = none → ¬ Outside op value (read bound)

def RangeOp.rank : RangeOp → Nat
  | .gt => 0
  | .gte => 1
  | .lt => 2
  | .lte => 3

/- A date whose evaluation panics stands behind one that rules the value out. -/
def DateHeeded (value : NaiveDate) (format : String) (bounds : RangeBounds Score) : Prop :=
  ∀ op, ∀ bound ∈ bounds.get op, ∀ panic,
    rangeValueToDate checks chrono today asI64 bound format = .error panic →
      ∃ earlier, earlier.rank < op.rank ∧ ∃ first ∈ bounds.get earlier, ∃ threshold,
        rangeValueToDate checks chrono today asI64 first format = .ok threshold ∧
          Outside earlier value.date.number (threshold.map fun date => date.date.number)

def BoundsHeeded (reading : BoundReading Score) (bounds : RangeBounds Score) :
    Comparand Score → Prop
  | .date value format => DateHeeded checks chrono today asI64 value format bounds
  | .number value => KindHeeded RangeValue.asNumber reading.asNumber value bounds
  | .text value => KindHeeded RangeValue.asText reading.asText value bounds

end Restriction

section Checks

variable {stops : RangeOp → RangeValue Score → Except Panic Bool} {bounds : RangeBounds Score}

/- All the bounds let the value pass, or the first that does not decides. -/
def FirstDecides (stops : RangeOp → RangeValue Score → Except Panic Bool) (bounds : RangeBounds Score)
    (ops : List RangeOp) (result : Except Panic Bool) : Prop :=
  (result = .ok true ∧ ∀ op ∈ ops, ∀ bound ∈ bounds.get op, stops op bound = .ok false) ∨
    ∃ op ∈ ops, ∃ bound ∈ bounds.get op, stops op bound ≠ .ok false ∧
      (∀ earlier ∈ ops, earlier.rank < op.rank →
        ∀ first ∈ bounds.get earlier, stops earlier first = .ok false) ∧
      result = (stops op bound).map not

theorem FirstDecides.behind {op : RangeOp} {rest : List RangeOp} {result : Except Panic Bool}
    (passes : ∀ bound ∈ bounds.get op, stops op bound = .ok false)
    (decides : FirstDecides stops bounds rest result) : FirstDecides stops bounds (op :: rest) result := by
  rcases decides with ⟨all, none_stops⟩ | ⟨last, member, bound, given, stopped, before, result⟩
  · exact .inl ⟨all, List.forall_mem_cons.mpr ⟨passes, none_stops⟩⟩
  · exact .inr ⟨last, List.mem_cons_of_mem _ member, bound, given, stopped,
      List.forall_mem_cons.mpr ⟨fun _ => passes, before⟩, result⟩

theorem inBoundsFrom_first {ops : List RangeOp} (ranked : ops.Pairwise fun a b => a.rank < b.rank) :
    FirstDecides stops bounds ops (inBoundsFrom stops bounds ops) := by
  induction ops with
  | nil => exact .inl ⟨rfl, by simp⟩
  | cons op rest ih =>
    obtain ⟨least, ranked⟩ := List.pairwise_cons.mp ranked
    rw [inBoundsFrom]
    cases given : bounds.get op with
    | none => exact (ih ranked).behind (by simp [given])
    | some bound =>
      dsimp only
      have here {result : Except Panic Bool} (stopped : stops op bound ≠ .ok false)
          (turned : result = (stops op bound).map not) : FirstDecides stops bounds (op :: rest) result := by
        refine .inr ⟨op, List.mem_cons_self, bound, given, stopped, ?_, turned⟩
        intro earlier member before
        rcases List.mem_cons.mp member with rfl | member
        · exact absurd before (lt_irrefl _)
        · exact absurd before (least earlier member).asymm
      cases stopped : stops op bound with
      | error panic => exact here (by simp [stopped]) (by rw [stopped]; rfl)
      | ok stop =>
        cases stop with
        | false =>
          refine FirstDecides.behind ?_ (ih ranked)
          intro _ other
          rw [given] at other
          exact Option.some.inj other ▸ stopped
        | true => exact here (by simp [stopped]) (by rw [stopped]; rfl)

/-- Either all the bounds let the value pass, or the first that does not decides. -/
theorem inBounds_first :
    (inBounds stops bounds = .ok true ∧ ∀ op, ∀ bound ∈ bounds.get op, stops op bound = .ok false) ∨
      ∃ op, ∃ bound ∈ bounds.get op, stops op bound ≠ .ok false ∧
        (∀ earlier, earlier.rank < op.rank →
          ∀ first ∈ bounds.get earlier, stops earlier first = .ok false) ∧
        inBounds stops bounds = (stops op bound).map not := by
  have every (op : RangeOp) : op ∈ [RangeOp.gt, .gte, .lt, .lte] := by cases op <;> decide
  rcases @inBoundsFrom_first Score stops bounds [.gt, .gte, .lt, .lte]
    (by decide) with ⟨all, pass⟩ | ⟨op, -, bound, given, stopped, before, result⟩
  · exact .inl ⟨all, fun op => pass op (every op)⟩
  · exact .inr ⟨op, bound, given, stopped, fun earlier => before earlier (every earlier), result⟩

theorem inBounds_true :
    inBounds stops bounds = .ok true ↔ ∀ op, ∀ bound ∈ bounds.get op, stops op bound = .ok false := by
  rcases @inBounds_first Score stops bounds with ⟨all, pass⟩ |
    ⟨op, bound, given, stopped, -, result⟩
  · exact iff_of_true all pass
  · refine iff_of_false ?_ fun pass => stopped (pass op bound given)
    rw [result]
    rcases verdict : stops op bound with panic | _ | _
    · simp [Except.map]
    · exact absurd verdict stopped
    · simp [Except.map]

theorem get_without {removed op : RangeOp} {bound : RangeValue Score}
    (given : bound ∈ (bounds.without removed).get op) : bound ∈ bounds.get op := by
  cases removed <;> cases op <;> first | exact given | cases given

theorem inBounds_without (passes : inBounds stops bounds = .ok true) (removed : RangeOp) :
    inBounds stops (bounds.without removed) = .ok true :=
  inBounds_true.mpr fun op bound given => inBounds_true.mp passes op bound (get_without given)

end Checks

section Regimes

variable {checks : Bool} {chrono : Chrono} {today : NaiveDate} {asI64 : Score → Int}
  {bounds : RangeBounds Score}

theorem kindStops_true {α : Type} [LinearOrder α] {own : RangeValue Score → Option α} {value : α}
    {op : RangeOp} {bound : RangeValue Score} :
    kindStops own value op bound = .ok true ↔ ∃ threshold ∈ own bound, op.excludes value threshold = true := by
  cases read : own bound with
  | none => simp [kindStops, read]
  | some threshold => simp [kindStops, read]

theorem kindStops_returns {α : Type} [LinearOrder α] (own : RangeValue Score → Option α) (value : α)
    (op : RangeOp) (bound : RangeValue Score) : ∃ stopped, kindStops own value op bound = .ok stopped := by
  unfold kindStops
  split <;> exact ⟨_, rfl⟩

/-- Among numbers, and among texts: every violated bound keeps the value out exactly when one of the value's
own kind does, or none of the other kind is violated. -/
theorem kind_restricts {α : Type} [LinearOrder α] {own read : RangeValue Score → Option α} {value : α}
    (extends_own : ∀ bound threshold, own bound = some threshold → read bound = some threshold) :
    (∀ op, ∀ bound ∈ bounds.get op, Outside op value (read bound) →
        inBounds (kindStops own value) bounds = .ok false) ↔ KindHeeded own read value bounds := by
  have decided : inBounds (kindStops own value) bounds = .ok false ↔
      ∃ op, ∃ bound ∈ bounds.get op, ∃ threshold ∈ own bound, op.excludes value threshold = true := by
    rcases @inBounds_first Score (kindStops own value) bounds with
      ⟨all, pass⟩ | ⟨op, bound, given, stopped, -, result⟩
    · refine iff_of_false (by simp [all]) ?_
      rintro ⟨op, bound, given, ruled_out⟩
      have stopped := kindStops_true.mpr ruled_out
      rw [pass op bound given] at stopped
      cases stopped
    · obtain ⟨verdict, returned⟩ := kindStops_returns own value op bound
      cases verdict with
      | false => exact absurd returned stopped
      | true =>
        rw [returned] at result
        exact iff_of_true result ⟨op, bound, given, kindStops_true.mp returned⟩
  constructor
  · intro restricts
    by_cases own_out : inBounds (kindStops own value) bounds = .ok false
    · exact .inl (decided.mp own_out)
    · exact .inr fun op bound given _ outside => own_out (restricts op bound given outside)
  · rintro (own_out | none_outside) op bound given outside
    · exact decided.mpr own_out
    · cases kind : own bound with
      | none => exact absurd outside (none_outside op bound given kind)
      | some threshold =>
        exact decided.mpr ⟨op, bound, given, threshold, kind,
          outside threshold (extends_own bound threshold kind)⟩

theorem dateStops_true {value : NaiveDate} {format : String} {op : RangeOp} {bound : RangeValue Score} :
    dateStops checks chrono today asI64 value format op bound = .ok true ↔
      ∃ threshold, rangeValueToDate checks chrono today asI64 bound format = .ok threshold ∧
        Outside op value.date.number (threshold.map fun date => date.date.number) := by
  rcases read : rangeValueToDate checks chrono today asI64 bound format with panic | _ | date
  · simp [dateStops, read, bind, Except.bind]
  · simp [dateStops, read, bind, Except.bind, pure, Except.pure, Outside]
  · simp [dateStops, read, bind, Except.bind, pure, Except.pure, Outside]

theorem dateStops_error {value : NaiveDate} {format : String} {op : RangeOp} {bound : RangeValue Score}
    {panic : Panic} :
    dateStops checks chrono today asI64 value format op bound = .error panic ↔
      rangeValueToDate checks chrono today asI64 bound format = .error panic := by
  rcases read : rangeValueToDate checks chrono today asI64 bound format with _ | _ | date <;>
    simp [dateStops, read, bind, Except.bind, pure, Except.pure]

/-- Among dates: every violated bound keeps the value out exactly when a bound whose evaluation panics
stands behind one that rules the value out. -/
theorem date_restricts [LinearOrder Score] {reading : BoundReading Score} {value : NaiveDate} {format : String} :
    (∀ op, ∀ bound ∈ bounds.get op,
        Violates checks chrono today asI64 reading op bound (.date value format) →
          dateInBounds checks chrono today asI64 value bounds format = .ok false) ↔
      DateHeeded checks chrono today asI64 value format bounds := by
  constructor
  · intro restricts op bound given panic panics
    have violated : Violates checks chrono today asI64 reading op bound (.date value format) := by
      intro threshold returned
      rw [panics] at returned
      cases returned
    have out := restricts op bound given violated
    rcases @inBounds_first Score (dateStops checks chrono today asI64 value format) bounds
      with ⟨all, -⟩ | ⟨first, firstBound, firstGiven, -, before, result⟩
    · rw [dateInBounds, all] at out
      cases out
    · have rules_out : dateStops checks chrono today asI64 value format first firstBound = .ok true := by
        rw [dateInBounds, result] at out
        rcases verdict : dateStops checks chrono today asI64 value format first firstBound with
          _ | _ | _ <;> simp_all [Except.map]
      refine ⟨first, ?_, firstBound, firstGiven, dateStops_true.mp rules_out⟩
      -- a bound that panics is not before the first one, nor is it that one
      rcases lt_trichotomy first.rank op.rank with less | same | greater
      · exact less
      · have one : first = op := by cases first <;> cases op <;> first | rfl | cases same
        subst one
        obtain rfl : firstBound = bound := Option.some.inj (firstGiven.symm.trans given)
        rw [dateStops_error.mpr panics] at rules_out
        cases rules_out
      · have passes := before op greater bound given
        rw [dateStops_error.mpr panics] at passes
        cases passes
  · intro heeded op bound given violated
    rcases @inBounds_first Score (dateStops checks chrono today asI64 value format) bounds
      with ⟨-, pass⟩ | ⟨first, firstBound, firstGiven, stopped, before, result⟩
    · have passes := pass op bound given
      rcases read : rangeValueToDate checks chrono today asI64 bound format with panic | threshold
      · rw [dateStops_error.mpr read] at passes
        cases passes
      · rw [dateStops_true.mpr ⟨threshold, read, violated threshold read⟩] at passes
        cases passes
    · rcases verdict : dateStops checks chrono today asI64 value format first firstBound with
        panic | _ | _
      · -- before a panic stands a bound that rules the value out
        obtain ⟨earlier, less, bound', given', rules_out⟩ :=
          heeded first firstBound firstGiven panic (dateStops_error.mp verdict)
        have passes := before earlier less bound' given'
        rw [dateStops_true.mpr rules_out] at passes
        cases passes
      · exact absurd verdict stopped
      · rw [dateInBounds, result, verdict]
        rfl

end Regimes

section Matching

variable [LinearOrder Score] (checks : Bool) (chrono : Chrono) (today : NaiveDate) (asI64 : Score → Int)
  (asF64 : String → Option Score)

def Comparand.inBounds (bounds : RangeBounds Score) : Comparand Score → Except Panic Bool
  | .date value format => dateInBounds checks chrono today asI64 value bounds format
  | .number value => numericInBounds value bounds
  | .text value => textInBounds value bounds

theorem plainInBounds_comparand (value : Value) (bounds : RangeBounds Score) :
    plainInBounds asF64 value bounds =
      match plainComparand asF64 value with
      | some comparand => comparand.inBounds checks chrono today asI64 bounds
      | none => .ok false := by
  cases value with
  | number printed isFloat =>
    cases read : asF64 printed <;> simp [plainInBounds, plainComparand, read, Comparand.inBounds]
  | string text => rfl
  | _ => rfl

theorem rangeFieldMatches_comparand (source : Value) (field : String) (bounds : RangeBounds Score)
    (mapping : IndexMapping) :
    match comparandOf checks chrono today asF64 source field mapping with
    | some comparand => rangeFieldMatches checks chrono today asI64 asF64 source field bounds mapping =
        comparand.inBounds checks chrono today asI64 bounds
    | none => rangeFieldMatches checks chrono today asI64 asF64 source field bounds mapping ≠ .ok true := by
  have plain (value : Value) :
      match plainComparand asF64 value with
      | some comparand => plainInBounds asF64 value bounds =
          comparand.inBounds checks chrono today asI64 bounds
      | none => plainInBounds asF64 value bounds ≠ .ok true := by
    rw [plainInBounds_comparand checks chrono today asI64]
    cases plainComparand asF64 value with
    | some comparand => rfl
    | none => nofun
  unfold rangeFieldMatches comparandOf
  cases found : source.asObject.bind (List.lookup field) with
  | none => nofun
  | some fieldValue =>
    cases formatted : dateFormatOf mapping field with
    | none => simpa using plain fieldValue
    | some format =>
      rcases stored : storedDate checks chrono today fieldValue format with panic | _ | date
      · simp [stored, bind, Except.bind]
      · simpa [stored, bind, Except.bind] using plain fieldValue
      · simp [stored, bind, Except.bind, Comparand.inBounds]

variable {checks chrono today asI64}

theorem Comparand.inBounds_without {comparand : Comparand Score} {bounds : RangeBounds Score}
    (passes : comparand.inBounds checks chrono today asI64 bounds = .ok true) (op : RangeOp) :
    comparand.inBounds checks chrono today asI64 (bounds.without op) = .ok true := by
  cases comparand with
  | date value format => exact Surch.Api.inBounds_without passes op
  | number value => exact Surch.Api.inBounds_without passes op
  | text value => exact Surch.Api.inBounds_without passes op

theorem Comparand.restricts {reading : BoundReading Score} {comparand : Comparand Score}
    {bounds : RangeBounds Score} :
    (∀ op, ∀ bound ∈ bounds.get op, Violates checks chrono today asI64 reading op bound comparand →
        comparand.inBounds checks chrono today asI64 bounds = .ok false) ↔
      BoundsHeeded checks chrono today asI64 reading bounds comparand := by
  cases comparand with
  | date value format => exact date_restricts
  | number value =>
    refine kind_restricts fun bound threshold own => ?_
    cases bound with
    | number n => exact own
    | text s => cases own
  | text value =>
    refine kind_restricts fun bound threshold own => ?_
    cases bound with
    | number n => cases own
    | text s => exact own

end Matching

section Range

variable [LinearOrder Score]

/-- Bounds only restrict exactly where those of the value's own kind rule it out, or none of the other kind
would, and where no date whose evaluation panics is read before one that rules the value out. -/
theorem range_restricts_iff (checks : Bool) (chrono : Chrono) (today : NaiveDate) (asI64 : Score → Int)
    (asF64 : String → Option Score) (reading : BoundReading Score) (source : Value) (field : String)
    (bounds : RangeBounds Score) (mapping : IndexMapping) :
    RangeRestricts checks chrono today asI64 asF64 reading source field bounds mapping ↔
      ∀ comparand ∈ comparandOf checks chrono today asF64 source field mapping,
        BoundsHeeded checks chrono today asI64 reading bounds comparand := by
  have decided := fun bounds =>
    rangeFieldMatches_comparand checks chrono today asI64 asF64 source field bounds mapping
  unfold RangeRestricts
  cases compared : comparandOf checks chrono today asF64 source field mapping with
  | none =>
    simp only [compared] at decided
    refine iff_of_true ⟨fun matched => absurd matched (decided bounds), ?_⟩ ?_ <;>
      exact fun comparand compared => absurd compared (Option.not_mem_none comparand)
  | some comparand =>
    simp only [compared] at decided
    constructor
    · rintro ⟨-, restricts⟩ _ ⟨⟩
      refine Comparand.restricts.mp fun op bound given violated => ?_
      rw [← decided]
      exact restricts comparand rfl op bound given violated
    · intro heeded
      constructor
      · intro matched op
        rw [decided] at matched ⊢
        exact Comparand.inBounds_without matched op
      · rintro _ ⟨⟩ op bound given violated
        rw [decided]
        exact Comparand.restricts.mpr (heeded comparand rfl) op bound given violated

def noChrono : Chrono where
  parseYmd _ := none
  fromTimestampMillis _ := none
  fromTimestamp _ := none

def wholeReading : BoundReading Int where
  numberOf text := parseI64 text.toList
  textOf n := some (toString n)

def ageFive : Value := .object [("age", .number "5" false)]

def aboveTen : RangeBounds Int := ⟨some (.text "10"), none, none, none⟩

/-- A bound written as a text does not stop a number: five passes `"gt": "10"`. -/
theorem not_range_restricts :
    rangeFieldMatches true noChrono newYear id (fun printed => parseI64 printed.toList) ageFive "age" aboveTen
        .default = .ok true ∧
      ¬ RangeRestricts true noChrono newYear id (fun printed => parseI64 printed.toList) wholeReading ageFive
        "age" aboveTen .default := by
  have found : comparandOf true noChrono newYear (fun printed => parseI64 printed.toList) ageFive "age"
      .default = some (.number (5 : Int)) := rfl
  have matched : rangeFieldMatches true noChrono newYear id (fun printed => parseI64 printed.toList) ageFive
      "age" aboveTen .default = .ok true := rfl
  refine ⟨matched, fun restricts => ?_⟩
  have violated : Violates true noChrono newYear id wholeReading .gt (.text "10")
      (.number (5 : Int)) := by
    rintro _ ⟨⟩
    decide
  have out := restricts.2 _ found .gt _ rfl violated
  rw [matched] at out
  cases out

end Range

end Surch.Api
