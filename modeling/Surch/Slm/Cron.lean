import Mathlib.Data.List.Sort
import Surch.Lib.Decimal
import Surch.Postings.Builder

/-! Cron expressions: how a schedule is parsed, and the first instant after another at which it
fires. -/
namespace Surch.Slm
open Surch.Lib Surch.Postings

section Text

def splitOn (separator : Char → Bool) : List Char → List (List Char)
  | [] => [[]]
  | c :: rest =>
    if separator c then [] :: splitOn separator rest
    else match splitOn separator rest with
      | [] => [[c]]
      | piece :: pieces => (c :: piece) :: pieces

def splitWhitespace (text : List Char) : List (List Char) :=
  (splitOn isWhitespace text).filter fun piece => !piece.isEmpty

def splitOnce (separator : Char) (text : List Char) : Option (List Char × List Char) :=
  match text.dropWhile (· ≠ separator) with
  | [] => none
  | _ :: rest => some (text.takeWhile (· ≠ separator), rest)

def trim (text : List Char) : List Char :=
  ((text.dropWhile isWhitespace).reverse.dropWhile isWhitespace).reverse

end Text

section Parsing

/- Days of the week count from Sunday, which is 0. -/
structure CronSchedule where
  seconds : List Nat
  minutes : List Nat
  hours : List Nat
  daysOfMonth : List Nat
  months : List Nat
  daysOfWeek : List Nat
  hadSeconds : Bool
deriving DecidableEq

inductive CronParseError where
  | badFieldCount (count : Nat)
  | invalidField (field reason : String)
deriving DecidableEq

def CronParseError.message : CronParseError → String
  | .badFieldCount count => s!"cron expression must have 5 or 6 fields, got {count}"
  | .invalidField field reason => s!"invalid cron field `{field}`: {reason}"

abbrev CronResult (α : Type) := Except CronParseError α

/- `while v <= end { acc.push(v); v += step; }` on `u32`s. A value is at most 59, so that a step which
overflows walks down to zero and ends there. -/
def stepValues (last step : Nat) : Nat → Nat → List Nat
  | 0, _ => []
  | fuel + 1, v => if v ≤ last then v :: stepValues last step fuel ((v + step) % 2 ^ 32) else []

def parseNumber (spec text : List Char) (what : String) : CronResult Nat :=
  match parseUnsigned (2 ^ 32) text with
  | some n => .ok n
  | none => .error (.invalidField (String.ofList spec) (what ++ " `" ++ String.ofList text ++ "`"))

/- The range of an entry and, behind a slash, its step. -/
def parseStep (spec chunk : List Char) : CronResult (List Char × Option Nat) :=
  match splitOnce '/' chunk with
  | none => .ok (chunk, none)
  | some (base, stepStr) => do
    let step ← parseNumber spec stepStr "invalid step"
    if step = 0 then throw (.invalidField (String.ofList spec) "step must be > 0")
    return (base, some step)

/- A plain `N/k` goes on to the highest value. -/
def parseRange (spec rangePart : List Char) (step : Option Nat) (lo hi : Nat) :
    CronResult (Nat × Nat) :=
  if rangePart = ['*'] then .ok (lo, hi)
  else match splitOnce '-' rangePart with
    | some (a, b) => do
      let a ← parseNumber spec a "invalid range start"
      let b ← parseNumber spec b "invalid range end"
      return (a, b)
    | none => do
      let n ← parseNumber spec rangePart "invalid integer"
      return (n, if step.isSome then hi else n)

def parseChunk (spec chunk : List Char) (lo hi : Nat) : CronResult (List Nat) := do
  if chunk.isEmpty then
    throw (.invalidField (String.ofList spec) "empty comma-separated entry")
  let (rangePart, step) ← parseStep spec chunk
  let (start, last) ← parseRange spec rangePart step lo hi
  if start < lo ∨ last > hi ∨ start > last then
    throw (.invalidField (String.ofList spec) s!"range {start}-{last} out of bounds [{lo},{hi}]")
  return stepValues last (step.getD 1) (hi + 1) start

def parseField (spec : List Char) (lo hi : Nat) : CronResult (List Nat) := do
  if spec = ['*'] ∨ spec = ['?'] then return List.range' lo (hi + 1 - lo)
  let values ← (splitOn (· == ',') spec).mapM fun chunk => parseChunk spec (trim chunk) lo hi
  return (values.flatten.insertionSort (· ≤ ·)).dedup

/- Quartz counts from Sunday, which is 1; 7, its Saturday, is taken for Sunday all the same. -/
def quartzDay (n : Nat) : Nat := if n = 7 then 0 else n - 1

def CronSchedule.parseFields (hadSeconds : Bool) (seconds : List Nat) :
    List (List Char) → CronResult CronSchedule
  | [minutes, hours, daysOfMonth, months, daysOfWeek] => do
    let minutes ← parseField minutes 0 59
    let hours ← parseField hours 0 23
    let daysOfMonth ← parseField daysOfMonth 1 31
    let months ← parseField months 1 12
    let daysOfWeek ← if hadSeconds then (·.map quartzDay) <$> parseField daysOfWeek 1 7
      else parseField daysOfWeek 0 6
    return { seconds, minutes, hours, daysOfMonth, months, daysOfWeek, hadSeconds }
  | parts => .error (.badFieldCount parts.length)

def CronSchedule.parse (expr : String) : CronResult CronSchedule :=
  match splitWhitespace expr.toList with
  | [seconds, minutes, hours, daysOfMonth, months, daysOfWeek] => do
    let seconds ← parseField seconds 0 59
    CronSchedule.parseFields true seconds [minutes, hours, daysOfMonth, months, daysOfWeek]
  | [minutes, hours, daysOfMonth, months, daysOfWeek] =>
    CronSchedule.parseFields false [0] [minutes, hours, daysOfMonth, months, daysOfWeek]
  | parts => .error (.badFieldCount parts.length)

example : CronSchedule.parse "0 30 1 * * ?" = .ok {
    seconds := [0], minutes := [30], hours := [1], daysOfMonth := List.range' 1 31,
    months := List.range' 1 12, daysOfWeek := [0, 1, 2, 3, 4, 5, 0], hadSeconds := true } := by
  decide +kernel

end Parsing

section Firing

/- What the schedule uses of a calendar: the parts of an instant and the instants with given parts. -/
structure Chrono (T : Type) where
  timestampMillis : T → Int
  fromTimestampMillis : Int → Option T
  plusSeconds : T → Int → T
  year : T → Int
  month : T → Nat
  day : T → Nat
  hour : T → Nat
  minute : T → Nat
  second : T → Nat
  numDaysFromSunday : T → Nat
  withYmdAndHms : Int → Nat → Nat → Nat → Nat → Nat → Option T
  nextDate : Int → Nat → Nat → Option (Int × Nat × Nat)
  formatYmd : T → String

namespace Chrono

variable {T : Type} (chrono : Chrono T)

def advanceToNextMinute (t : T) : Option T :=
  (chrono.withYmdAndHms (chrono.year t) (chrono.month t) (chrono.day t) (chrono.hour t)
    (chrono.minute t) 0).map fun q => chrono.plusSeconds q 60

def advanceToNextHour (t : T) : Option T :=
  (chrono.withYmdAndHms (chrono.year t) (chrono.month t) (chrono.day t) (chrono.hour t) 0 0).map
    fun q => chrono.plusSeconds q 3600

def advanceToNextDay (t : T) : Option T := do
  let (year, month, day) ← chrono.nextDate (chrono.year t) (chrono.month t) (chrono.day t)
  chrono.withYmdAndHms year month day 0 0 0

def advanceToNextMonth (t : T) : Option T :=
  if chrono.month t = 12 then chrono.withYmdAndHms (chrono.year t + 1) 1 1 0 0 0
  else chrono.withYmdAndHms (chrono.year t) (chrono.month t + 1) 1 0 0 0

def wholeSecond (t : T) : Option T :=
  chrono.withYmdAndHms (chrono.year t) (chrono.month t) (chrono.day t) (chrono.hour t)
    (chrono.minute t) (chrono.second t)

end Chrono

namespace CronSchedule

variable {T : Type} [LinearOrder T] (chrono : Chrono T) (schedule : CronSchedule)

def Fires (t : T) : Prop :=
  chrono.month t ∈ schedule.months ∧ chrono.day t ∈ schedule.daysOfMonth ∧
    chrono.numDaysFromSunday t ∈ schedule.daysOfWeek ∧ chrono.hour t ∈ schedule.hours ∧
    chrono.minute t ∈ schedule.minutes ∧ chrono.second t ∈ schedule.seconds

instance (t : T) : Decidable (schedule.Fires chrono t) := by
  unfold Fires
  infer_instance

def search (limit : T) : Nat → T → Option T
  | 0, _ => none
  | fuel + 1, cursor =>
    if limit < cursor then none
    else if chrono.month cursor ∉ schedule.months then do
      search limit fuel (← chrono.advanceToNextMonth cursor)
    else if chrono.day cursor ∉ schedule.daysOfMonth ∨
        chrono.numDaysFromSunday cursor ∉ schedule.daysOfWeek then do
      search limit fuel (← chrono.advanceToNextDay cursor)
    else if chrono.hour cursor ∉ schedule.hours then do
      search limit fuel (← chrono.advanceToNextHour cursor)
    else if chrono.minute cursor ∉ schedule.minutes then do
      search limit fuel (← chrono.advanceToNextMinute cursor)
    else if chrono.second cursor ∉ schedule.seconds then
      search limit fuel (chrono.plusSeconds cursor 1)
    else some cursor

def searchBound : Nat := 366 * 4 * 86400

def nextFireAfter (after : T) : Option T := do
  let cursor ← chrono.wholeSecond (chrono.plusSeconds after 1)
  schedule.search chrono (chrono.plusSeconds after searchBound) (searchBound + 1) cursor

theorem fires_of_search {limit : T} {fuel : Nat} {cursor t : T}
    (found : schedule.search chrono limit fuel cursor = some t) :
    schedule.Fires chrono t ∧ t ≤ limit := by
  induction fuel generalizing cursor with
  | zero => cases found
  | succ fuel ih =>
    have later {next : Option T} (found : (do schedule.search chrono limit fuel (← next)) = some t) :
        schedule.Fires chrono t ∧ t ≤ limit := by
      obtain ⟨cursor, -, found⟩ := Option.bind_eq_some_iff.mp found
      exact ih found
    rw [search] at found
    split at found
    · cases found
    · rename_i within
      split at found
      · exact later found
      · rename_i month
        split at found
        · exact later found
        · rename_i day
          split at found
          · exact later found
          · rename_i hour
            split at found
            · exact later found
            · rename_i minute
              split at found
              · exact ih found
              · rename_i second
                obtain rfl := Option.some.inj found
                simp only [not_or, not_not] at month day hour minute second
                exact ⟨⟨month, day.1, day.2, hour, minute, second⟩, not_lt.mp within⟩

theorem fires_of_nextFireAfter {after t : T} (found : schedule.nextFireAfter chrono after = some t) :
    schedule.Fires chrono t := by
  obtain ⟨cursor, -, found⟩ := Option.bind_eq_some_iff.mp found
  exact (schedule.fires_of_search chrono found).1

end CronSchedule

end Firing

section Gregorian

/- Instants in milliseconds since 1970-01-01, and dates as days since then. -/
def secondsOf (t : Int) : Int := t / 1000

def daysOf (t : Int) : Int := t / 86400000

def secondsOfDay (t : Int) : Nat := (secondsOf t % 86400).toNat

/- The date of a day; years are counted from March inside eras of 400 years. -/
def civilOfDays (days : Int) : Int × Nat × Nat :=
  let shifted := days + 719468
  let era := shifted / 146097
  let dayOfEra := (shifted % 146097).toNat
  let yearOfEra := (dayOfEra - dayOfEra / 1460 + dayOfEra / 36524 - dayOfEra / 146096) / 365
  let dayOfYear := dayOfEra - (365 * yearOfEra + yearOfEra / 4 - yearOfEra / 100)
  let shiftedMonth := (5 * dayOfYear + 2) / 153
  let day := dayOfYear - (153 * shiftedMonth + 2) / 5 + 1
  let month := if shiftedMonth < 10 then shiftedMonth + 3 else shiftedMonth - 9
  (yearOfEra + era * 400 + (if month ≤ 2 then 1 else 0), month, day)

def daysOfCivil (year : Int) (month day : Nat) : Int :=
  let shifted := if month ≤ 2 then year - 1 else year
  let era := shifted / 400
  let yearOfEra := shifted % 400
  let shiftedMonth := if month > 2 then month - 3 else month + 9
  let dayOfYear := (153 * shiftedMonth + 2) / 5 + day - 1
  era * 146097 + yearOfEra * 365 + yearOfEra / 4 - yearOfEra / 100 + dayOfYear - 719468

/- No day comes out under a date that is not on the calendar. -/
def daysOfDate (year : Int) (month day : Nat) : Option Int :=
  if civilOfDays (daysOfCivil year month day) = (year, month, day) then
    some (daysOfCivil year month day)
  else none

def gregorian : Chrono Int where
  timestampMillis t := t
  fromTimestampMillis t := some t
  plusSeconds t seconds := t + 1000 * seconds
  year t := (civilOfDays (daysOf t)).1
  month t := (civilOfDays (daysOf t)).2.1
  day t := (civilOfDays (daysOf t)).2.2
  hour t := secondsOfDay t / 3600
  minute t := secondsOfDay t % 3600 / 60
  second t := secondsOfDay t % 60
  numDaysFromSunday t := ((daysOf t + 4) % 7).toNat
  withYmdAndHms year month day hour minute second := do
    if hour < 24 ∧ minute < 60 ∧ second < 60 then
      let days ← daysOfDate year month day
      return 1000 * (days * 86400 + 3600 * hour + 60 * minute + second)
    else none
  nextDate year month day := (daysOfDate year month day).map fun days => civilOfDays (days + 1)
  formatYmd t :=
    let date := civilOfDays (daysOf t)
    String.ofList (zeroPadded 4 date.1.toNat ++ zeroPadded 2 date.2.1 ++ zeroPadded 2 date.2.2)

/- From noon on 2026-05-16, a Saturday, the next `30 1 * * 1` is on Monday. -/
example : (CronSchedule.parse "30 1 * * 1").toOption.bind
      (fun schedule => schedule.nextFireAfter gregorian 1778932800000) = some 1779067800000 ∧
    gregorian.formatYmd 1779067800000 = "20260518" := by
  decide +kernel

end Gregorian

end Surch.Slm
