import Surch.Lib.Calendar
import Surch.Api.CompositeAggregation

/-! The calendar under `date_histogram`: the two counts of days, the Monday of a week, and the keys that
dates are truncated to. Years are unbounded here, and nothing overflows. A date is read without a look at
the length of its month, and the year 0000 is read as well. -/
namespace Surch.Api
open Surch.Lib Surch.Lib.Calendar

section Counts

theorem tdiv_floor {b : Int} (positive : 0 < b) (z : Int) :
    (if z ≥ 0 then z else z - (b - 1)).tdiv b = z / b := by
  rw [Int.tdiv_eq_ediv]
  split
  · rename_i nonneg
    simp [nonneg]
  · rename_i negative
    have split := Int.emod_add_mul_ediv z b
    have low := Int.emod_nonneg z positive.ne'
    have high := Int.emod_lt_of_pos z positive
    have below : ¬ 0 ≤ z - (b - 1) := by omega
    by_cases last : z % b = b - 1
    · have whole : z - (b - 1) = b * (z / b) := by omega
      rw [whole, Int.mul_ediv_cancel_left _ positive.ne', if_pos (.inr (Int.dvd_mul_right ..)), Int.add_zero]
    · have parts := (Int.ediv_emod_unique (a := z - (b - 1)) (r := z % b + 1) (q := z / b - 1) positive).mpr
        ⟨by rw [Int.mul_sub, Int.mul_one]; omega, by omega, by omega⟩
      have apart : ¬ b ∣ z - (b - 1) := by
        intro divides
        have none := Int.emod_eq_zero_of_dvd divides
        omega
      rw [parts.1, if_neg (by tauto), Int.sign_eq_one_of_pos positive, Int.sub_add_cancel]

theorem daysFromCivil_eq {date : Date} (positive : 1 ≤ date.month) (inside : date.month ≤ 12) :
    daysFromCivil date.year date.month date.day = date.number - 719162 := by
  have shift : ∀ y doy : Int, 719162 + ((y / 400) * 146097 +
      ((y - y / 400 * 400) * 365 + (y - y / 400 * 400) / 4 - (y - y / 400 * 400) / 100 + doy) - 719468) =
        marchStart y - 306 + doy := by
    intro y doy
    have era := marchStart_era (y - y / 400 * 400) (y / 400)
    rw [Int.sub_add_cancel] at era
    have small : (y - y / 400 * 400) / 400 = 0 := by omega
    rw [era, marchStart, small]
    ring
  have months : ((153 * (if (date.month : Int) > 2 then (date.month : Int) - 3 else date.month + 9) + 2) / 5) =
      if date.month ≤ 2 then (monthStart date.year date.month : Int) + 306
      else monthStart date.year date.month - yearLength date.year + 306 := by
    by_cases early : date.month ≤ 2
    · obtain one | two : date.month = 1 ∨ date.month = 2 := by omega
      · rw [one]
        rfl
      · rw [two]
        rfl
    · have march := @monthStart_march date.year _ (by omega) inside
      rw [if_neg early, if_pos (by omega)]
      omega
  unfold daysFromCivil
  have floor := tdiv_floor (b := 400) (by decide)
  norm_num only at floor
  simp only [floor]
  rw [eq_sub_iff_add_eq, Int.add_comm, shift, months, Date.number]
  by_cases early : date.month ≤ 2
  · rw [if_pos early, if_pos (by omega), ← yearStart_march, Int.sub_add_cancel]
    omega
  · rw [if_neg early, if_neg (by omega), ← yearStart_march, yearStart_succ]
    omega

theorem yearOfEra_cast (dayOfEra : Nat) :
    ((yearOfEra dayOfEra : Nat) : Int) =
      ((dayOfEra : Int) - dayOfEra / 1460 + dayOfEra / 36524 - dayOfEra / 146096) / 365 := by
  have first : dayOfEra / 1460 ≤ dayOfEra := Nat.div_le_self _ _
  have second : dayOfEra / 146096 ≤ dayOfEra - dayOfEra / 1460 + dayOfEra / 36524 := by omega
  rw [yearOfEra]
  push_cast [Nat.cast_sub first, Nat.cast_sub second]
  rfl

theorem civilFromDays_eq (days : Int) :
    civilFromDays days =
      ((ofNumber (days + 719162)).year, ((ofNumber (days + 719162)).month : Int),
        ((ofNumber (days + 719162)).day : Int)) := by
  have shifted : days + 719162 + 306 = days + 719468 := by omega
  have inside := dayOfEra_lt (days + 719162)
  have floor := tdiv_floor (b := 146097) (by decide) (days + 719468)
  norm_num only at floor
  simp only [civilFromDays, ofNumber, floor]
  rw [shifted] at inside ⊢
  have rest : days + 719468 - (days + 719468) / 146097 * 146097 =
      (((days + 719468) % 146097).toNat : Int) := by omega
  rw [rest]
  generalize (days + 719468) / 146097 = era
  generalize ((days + 719468) % 146097).toNat = dayOfEra at inside ⊢
  obtain ⟨few, within, -, split⟩ := yearOfEra_spec inside
  obtain ⟨months, above, -⟩ := shiftedMonth_spec within
  have day : (dayOfEra : Int) - (365 * (yearOfEra dayOfEra : Int) + (yearOfEra dayOfEra : Int) / 4 -
      (yearOfEra dayOfEra : Int) / 100) = dayOfYear dayOfEra := by omega
  have month : (5 * (dayOfYear dayOfEra : Int) + 2) / 153 = shiftedMonth (dayOfYear dayOfEra) := by
    rw [shiftedMonth]
    push_cast
    rfl
  rw [← yearOfEra_cast, day, month, ofEra]
  generalize shiftedMonth (dayOfYear dayOfEra) = mp at months above ⊢
  have civil : (if (mp : Int) < 10 then (mp : Int) + 3 else mp - 9) = civilMonth mp := by
    unfold civilMonth
    by_cases early : mp < 10
    · rw [if_pos early, if_pos (by omega)]
      rfl
    · rw [if_neg early, if_neg (by omega)]
      omega
  rw [civil]
  refine Prod.ext ?_ (Prod.ext rfl ?_)
  · by_cases early : civilMonth mp ≤ 2
    · rw [if_pos early, if_pos (by omega)]
    · rw [if_neg early, if_neg (by omega), Int.add_zero]
  · dsimp only
    omega

theorem civilFromDays_daysFromCivil {date : Date} (valid : date.Valid) :
    civilFromDays (daysFromCivil date.year date.month date.day) =
      (date.year, (date.month : Int), (date.day : Int)) := by
  rw [daysFromCivil_eq valid.month_pos valid.month_le, civilFromDays_eq, Int.sub_add_cancel,
    ofNumber_number valid]

end Counts

section Weeks

def Monday (date : Date) : Prop := date.number % 7 = 0

/- So is the one of the week of 1970-01-01, a Thursday. -/
example : Monday ⟨1969, 12, 29⟩ := by
  unfold Monday
  decide

def weekStart (date : Date) : Date := ofNumber (date.number - date.number % 7)

theorem weekAnchorMonday_eq {date : Date} (positive : 1 ≤ date.month) (inside : date.month ≤ 12) :
    weekAnchorMonday date.year date.month date.day =
      ((weekStart date).year, ((weekStart date).month : Int), ((weekStart date).day : Int)) := by
  have days : daysFromCivil date.year date.month date.day -
      (daysFromCivil date.year date.month date.day + 3).emod 7 + 719162 =
        date.number - date.number % 7 := by
    rw [daysFromCivil_eq positive inside]
    have seventh : (date.number - 719162 + 3).emod 7 = date.number % 7 := by
      change (date.number - 719162 + 3) % 7 = date.number % 7
      omega
    rw [seventh]
    omega
  rw [weekAnchorMonday]
  simp only [civilFromDays_eq, days]
  rfl

theorem number_weekStart (date : Date) : (weekStart date).number = date.number - date.number % 7 :=
  number_ofNumber _

theorem weekStart_monday (date : Date) : Monday (weekStart date) := by
  rw [Monday, number_weekStart]
  omega

theorem weekStart_unique {date other : Date} (valid : other.Valid) (monday : Monday other)
    (above : date.number - 7 < other.number) (below : other.number ≤ date.number) :
    other = weekStart date := by
  apply number_injective valid (ofNumber_valid _)
  rw [number_ofNumber]
  unfold Monday at monday
  omega

end Weeks

section Parsing

def isLeapYear (year : Int) : Bool :=
  (year % 4 == 0 && year % 100 != 0) || year % 400 == 0

def daysInMonth (year : Int) (month : Nat) : Option Nat :=
  if month = 1 ∨ month = 3 ∨ month = 5 ∨ month = 7 ∨ month = 8 ∨ month = 10 ∨ month = 12 then some 31
  else if month = 4 ∨ month = 6 ∨ month = 9 ∨ month = 11 then some 30
  else if month = 2 then some (if isLeapYear year then 29 else 28)
  else none

/- Years and months are added up from 0001-01-01. -/
def parseYyyymmddToDays (text : String) : Option Int := do
  let digits := text.toList
  if digits.length ≠ 8 ∨ ¬ digits.all Char.isDigit then none
  else
    let year := Nat.ofDigitChars 10 (digits.take 4) 0
    let month := Nat.ofDigitChars 10 ((digits.drop 4).take 2) 0
    let day := Nat.ofDigitChars 10 (digits.drop 6) 0
    if ¬ (1 ≤ month ∧ month ≤ 12) ∨ day = 0 then none
    else
      let maxDay ← daysInMonth year month
      if day > maxDay then none
      else
        let years := (List.range' 1 (year - 1)).map fun y : Nat => if isLeapYear y then 366 else 365
        let months ← (List.range' 1 (month - 1)).mapM (daysInMonth year)
        return (years.sum + months.sum : Nat) + (day - 1)

theorem isLeapYear_iff (year : Int) : isLeapYear year = true ↔ Leap year := by
  simp [isLeapYear, Leap]

theorem daysInMonth_eq {year : Int} {month : Nat} (positive : 1 ≤ month) (inside : month ≤ 12) :
    daysInMonth year month = some (monthLength year month) := by
  have leap := isLeapYear_iff year
  interval_cases month <;> simp [daysInMonth, monthLength, leap]

theorem sum_yearLength (count : Nat) :
    (((List.range' 1 count).map fun y : Nat => if isLeapYear y then 366 else 365).sum : Nat) =
      yearStart (count + 1) := by
  induction count with
  | zero => rfl
  | succ count ih =>
    have last : (if isLeapYear (1 + 1 * count : Nat) then 366 else 365 : Nat) =
        yearLength (count + 1) := by
      have same : ((1 + 1 * count : Nat) : Int) = count + 1 := by omega
      rw [yearLength, same]
      simp only [isLeapYear_iff]
    rw [List.range'_concat, List.map_append, List.sum_append, List.map_cons, List.map_nil, List.sum_cons,
      List.sum_nil, Nat.add_zero, last, Nat.cast_add, ih, Nat.cast_succ, yearStart_succ (count + 1)]

theorem mapM_daysInMonth {year : Int} {count : Nat} (inside : count ≤ 12) :
    ∃ months, (List.range' 1 count).mapM (daysInMonth year) = some months ∧
      months.sum = monthStart year (count + 1) := by
  induction count with
  | zero => exact ⟨[], rfl, rfl⟩
  | succ count ih =>
    obtain ⟨months, read, total⟩ := ih (by omega)
    have last : 1 + 1 * count = count + 1 := by omega
    refine ⟨months ++ [monthLength year (count + 1)], ?_, ?_⟩
    · rw [List.range'_concat, List.mapM_append, read, last]
      simp [@daysInMonth_eq year (count + 1) (by omega) inside]
    · rw [List.sum_append, total, @monthStart_succ year (count + 1) (by omega)]
      simp

end Parsing

section Buckets

/- A date as it is read from eight digits: a day of at most 31, whatever the month. -/
structure DateDigits (date : Date) : Prop where
  year_nonneg : 0 ≤ date.year
  year_lt : date.year < 10000
  month_pos : 1 ≤ date.month
  month_le : date.month ≤ 12
  day_pos : 1 ≤ date.day
  day_le : date.day ≤ 31

def dateText (date : Date) : String :=
  String.ofList (zeroPadded 4 date.year.toNat ++ zeroPadded 2 date.month ++ zeroPadded 2 date.day)

theorem DateDigits.of_valid {date : Date} (valid : date.Valid) (low : 0 ≤ date.year)
    (high : date.year < 10000) : DateDigits date :=
  ⟨low, high, valid.month_pos, valid.month_le, valid.day_pos, valid.day_le.trans (monthLength_le _ _).2⟩

theorem DateDigits.digits {date : Date} (written : DateDigits date) :
    (dateText date).toList.length = 8 ∧ (dateText date).toList.all Char.isDigit = true ∧
      (Nat.ofDigitChars 10 ((dateText date).toList.take 4) 0 : Int) = date.year ∧
      Nat.ofDigitChars 10 (((dateText date).toList.drop 4).take 2) 0 = date.month ∧
      Nat.ofDigitChars 10 ((dateText date).toList.drop 6) 0 = date.day := by
  have low := written.year_nonneg
  have high := written.year_lt
  have four : (zeroPadded 4 date.year.toNat).length = 4 := zeroPadded_length (by omega) (by decide)
  have two : (zeroPadded 2 date.month).length = 2 :=
    zeroPadded_length (lt_of_le_of_lt written.month_le (by decide)) (by decide)
  have last : (zeroPadded 2 date.day).length = 2 :=
    zeroPadded_length (lt_of_le_of_lt written.day_le (by decide)) (by decide)
  have text : (dateText date).toList =
      zeroPadded 4 date.year.toNat ++ (zeroPadded 2 date.month ++ zeroPadded 2 date.day) := by
    rw [dateText, String.toList_ofList, List.append_assoc]
  have years : (dateText date).toList.take 4 = zeroPadded 4 date.year.toNat := by
    rw [text, List.take_left' four]
  have rest : (dateText date).toList.drop 4 = zeroPadded 2 date.month ++ zeroPadded 2 date.day := by
    rw [text, List.drop_left' four]
  have days : (dateText date).toList.drop 6 = zeroPadded 2 date.day := by
    have split : (dateText date).toList.drop (4 + 2) = ((dateText date).toList.drop 4).drop 2 :=
      List.drop_drop.symm
    rw [split, rest, List.drop_left' two]
  refine ⟨?_, ?_, ?_, ?_, ?_⟩
  · rw [text, List.length_append, List.length_append, four, two, last]
  · rw [text, List.all_eq_true]
    intro c member
    rw [List.mem_append, List.mem_append] at member
    rcases member with member | member | member <;> exact zeroPadded_isDigit member
  · rw [years, ofDigitChars_zeroPadded]
    omega
  · rw [rest, List.take_left' two, ofDigitChars_zeroPadded]
  · rw [days, ofDigitChars_zeroPadded]

/-- Eight digits that name a month and a day of at most 31 are the text of a date. -/
theorem exists_written {text : String} (length : text.toList.length = 8)
    (digits : text.toList.all Char.isDigit = true)
    (month : 1 ≤ Nat.ofDigitChars 10 ((text.toList.drop 4).take 2) 0 ∧
      Nat.ofDigitChars 10 ((text.toList.drop 4).take 2) 0 ≤ 12)
    (day : 1 ≤ Nat.ofDigitChars 10 (text.toList.drop 6) 0 ∧
      Nat.ofDigitChars 10 (text.toList.drop 6) 0 ≤ 31) :
    ∃ date, DateDigits date ∧ text = dateText date := by
  rw [List.all_eq_true] at digits
  have four : (text.toList.take 4).length = 4 := by rw [List.length_take, length]; decide
  have two : ((text.toList.drop 4).take 2).length = 2 := by
    rw [List.length_take, List.length_drop, length]
    decide
  have last : (text.toList.drop 6).length = 2 := by rw [List.length_drop, length]
  have small := @ofDigitChars_lt (text.toList.take 4) fun c member =>
    digits c (List.mem_of_mem_take member)
  rw [four] at small
  refine ⟨⟨(Nat.ofDigitChars 10 (text.toList.take 4) 0 : Nat),
    Nat.ofDigitChars 10 ((text.toList.drop 4).take 2) 0, Nat.ofDigitChars 10 (text.toList.drop 6) 0⟩,
    ⟨by dsimp only; omega, by dsimp only; omega, month.1, month.2, day.1, day.2⟩, ?_⟩
  have years := @zeroPadded_ofDigitChars (text.toList.take 4) (by omega)
    fun c member => digits c (List.mem_of_mem_take member)
  have months := @zeroPadded_ofDigitChars ((text.toList.drop 4).take 2) (by omega)
    fun c member => digits c (List.mem_of_mem_drop (List.mem_of_mem_take member))
  have days := @zeroPadded_ofDigitChars (text.toList.drop 6) (by omega)
    fun c member => digits c (List.mem_of_mem_drop member)
  rw [four] at years
  rw [two] at months
  rw [last] at days
  have parts : text.toList = text.toList.take 4 ++ (text.toList.drop 4).take 2 ++ text.toList.drop 6 := by
    have rest : text.toList.drop 6 = (text.toList.drop 4).drop 2 := by rw [List.drop_drop]
    rw [rest, List.append_assoc, List.take_append_drop, List.take_append_drop]
  rw [dateText, Int.toNat_natCast, years, months, days, ← parts, String.ofList_toList]

theorem parseYyyymmddToDays_dateText {date : Date} (valid : date.Valid) (low : 1 ≤ date.year)
    (high : date.year < 10000) : parseYyyymmddToDays (dateText date) = some date.number := by
  obtain ⟨length, all, year, month, day⟩ :=
    (DateDigits.of_valid valid (by omega) high).digits
  have readable : ¬ ((dateText date).toList.length ≠ 8 ∨ ¬ (dateText date).toList.all Char.isDigit) := by
    rw [length, all]
    decide
  rw [parseYyyymmddToDays]
  simp only [if_neg readable, month, day, year]
  have calendar : ¬ (¬ (1 ≤ date.month ∧ date.month ≤ 12) ∨ date.day = 0) := by
    have positive := valid.month_pos
    have inside := valid.month_le
    have day := valid.day_pos
    omega
  have short : ¬ date.day > monthLength date.year date.month := by
    have day := valid.day_le
    omega
  obtain ⟨months, read, total⟩ := @mapM_daysInMonth date.year (date.month - 1) (by
    have inside := valid.month_le
    omega)
  rw [if_neg calendar, daysInMonth_eq valid.month_pos valid.month_le]
  simp only [Option.bind_eq_bind, Option.bind_some, if_neg short, read]
  have count : ((Nat.ofDigitChars 10 ((dateText date).toList.take 4) 0 - 1 : Nat) : Int) + 1 =
      date.year := by omega
  have years := sum_yearLength (Nat.ofDigitChars 10 ((dateText date).toList.take 4) 0 - 1)
  rw [count] at years
  have same : date.month - 1 + 1 = date.month := Nat.sub_add_cancel valid.month_pos
  rw [same] at total
  rw [total, Nat.cast_add, years, Date.number]
  refine congrArg some ?_
  omega

/- A date with its interval's smaller parts taken back to their first. -/
def truncate : CalendarInterval → Date → Date
  | .day, date => date
  | .month, date => { date with day := 1 }
  | .year, date => { date with month := 1, day := 1 }
  | .week, date => weekStart date

def keyText (date : Date) : String :=
  paddedInt 4 date.year ++ paddedInt 2 date.month ++ paddedInt 2 date.day

theorem bucketKeyForDate_ok {text key : String} {interval : CalendarInterval} :
    bucketKeyForDate (.string text) interval = some key ↔
      ∃ date, DateDigits date ∧ text = dateText date ∧ key = keyText (truncate interval date) := by
  have keys : ∀ date, DateDigits date →
      bucketKeyForDate (.string (dateText date)) interval = some (keyText (truncate interval date)) := by
    intro date written
    obtain ⟨length, all, year, month, day⟩ := written.digits
    have readable : ¬ ((dateText date).toList.length ≠ 8 ∨ ¬ (dateText date).toList.all Char.isDigit) := by
      rw [length, all]
      decide
    have inside : ¬ (¬ (1 ≤ date.month ∧ date.month ≤ 12) ∨ ¬ (1 ≤ date.day ∧ date.day ≤ 31)) := by
      simp only [not_or, not_not]
      exact ⟨⟨written.month_pos, written.month_le⟩, written.day_pos, written.day_le⟩
    have first : paddedInt 2 1 = "01" := by decide
    rw [bucketKeyForDate]
    simp only [Value.asStr, Option.bind_eq_bind, Option.bind_some, if_neg readable, month, day, year,
      if_neg inside]
    cases interval with
    | day => rfl
    | month =>
      simp only [keyText, truncate, Nat.cast_one, first]
      rfl
    | year =>
      have both : ("0101" : String) = "01" ++ "01" := by decide
      simp only [keyText, truncate, both, Nat.cast_one, first, String.append_assoc]
      rfl
    | week =>
      have anchor := weekAnchorMonday_eq written.month_pos written.month_le
      simp only [anchor]
      rfl
  constructor
  · intro accepted
    have read := accepted
    rw [bucketKeyForDate] at read
    simp only [Value.asStr, Option.bind_eq_bind, Option.bind_some] at read
    split at read
    · cases read
    · rename_i readable
      split at read
      · cases read
      · rename_i inside
        simp only [not_or, not_not] at readable inside
        obtain ⟨date, written, rfl⟩ := exists_written readable.1 readable.2 inside.1 inside.2
        rw [keys date written] at accepted
        exact ⟨date, written, rfl, (Option.some.inj accepted).symm⟩
  · rintro ⟨date, written, rfl, rfl⟩
    exact keys date written

end Buckets

section Keys

theorem DateDigits.number_lt {date : Date} (written : DateDigits date) :
    date.number < yearStart date.year + yearLength date.year := by
  have day := written.day_le
  have whole := monthStart_year date.year
  rw [Date.number]
  obtain last | below : date.month = 12 ∨ date.month < 12 := by
    have inside := written.month_le
    omega
  · rw [last]
    have december : monthLength date.year 12 = 31 := rfl
    omega
  · have start := @monthStart_lt date.year _ _ written.month_pos below
    have length := (monthLength_le date.year date.month).1
    have december : monthLength date.year 12 = 31 := rfl
    omega

structure KeyDate (date : Date) : Prop where
  year_ge : -1 ≤ date.year
  year_lt : date.year < 10000
  month_pos : 1 ≤ date.month
  month_le : date.month ≤ 12
  day_pos : 1 ≤ date.day
  day_le : date.day ≤ 31

theorem weekStart_number_ge {date : Date} (written : DateDigits date) :
    yearStart 0 - 5 ≤ (weekStart date).number := by
  have start : yearStart 0 = -366 := rfl
  have low := (yearStart_mono written.year_nonneg).trans (yearStart_le_number written.day_pos)
  rw [number_weekStart]
  omega

theorem truncate_keyDate {interval : CalendarInterval} {date : Date} (written : DateDigits date) :
    KeyDate (truncate interval date) := by
  have low : -1 ≤ date.year := by
    have nonneg := written.year_nonneg
    omega
  have first : 1 ≤ 1 ∧ 1 ≤ 12 ∧ 1 ≤ 31 := by decide
  cases interval with
  | day =>
    exact ⟨low, written.year_lt, written.month_pos, written.month_le, written.day_pos, written.day_le⟩
  | month => exact ⟨low, written.year_lt, written.month_pos, written.month_le, first.1, first.2.2⟩
  | year => exact ⟨low, written.year_lt, first.1, first.2.1, first.1, first.2.2⟩
  | week =>
    have valid : (weekStart date).Valid := ofNumber_valid _
    refine ⟨?_, ?_, valid.month_pos, valid.month_le, valid.day_pos,
      valid.day_le.trans (monthLength_le _ _).2⟩
    · apply year_le_of_le_number valid
      have above := weekStart_number_ge written
      have start : yearStart (-1) + 5 ≤ yearStart 0 := by decide
      change yearStart (-1) ≤ (weekStart date).number
      omega
    · apply year_lt_of_number_lt valid
      have below := written.number_lt
      have next := yearStart_mono (show date.year + 1 ≤ 10000 from written.year_lt)
      rw [yearStart_succ] at next
      change (weekStart date).number < yearStart 10000
      rw [number_weekStart]
      omega

theorem truncate_negative {interval : CalendarInterval} {date : Date} (written : DateDigits date) :
    (truncate interval date).year < 0 ↔
      interval = .week ∧ date.year = 0 ∧ date.month = 1 ∧ date.day ≤ 2 := by
  have low := written.year_nonneg
  cases interval with
  | day => exact iff_of_false (not_lt.mpr low) (by simp)
  | month => exact iff_of_false (not_lt.mpr low) (by simp)
  | year => exact iff_of_false (not_lt.mpr low) (by simp)
  | week =>
    have valid : (weekStart date).Valid := ofNumber_valid _
    have start : yearStart 0 = -366 := rfl
    have sunday : (weekStart date).year < 0 ↔ date.number ≤ -365 := by
      constructor
      · intro negative
        have below := number_lt_yearStart valid
        have next := yearStart_mono (show (weekStart date).year + 1 ≤ 0 from negative)
        rw [yearStart_succ] at next
        rw [number_weekStart] at below
        omega
      · intro early
        apply year_lt_of_number_lt valid
        rw [number_weekStart]
        have above := (yearStart_mono low).trans (yearStart_le_number written.day_pos)
        omega
    change (weekStart date).year < 0 ↔ _
    rw [sunday]
    constructor
    · intro early
      have year : date.year = 0 := by
        by_contra later
        have one := yearStart_mono (show (1 : Int) ≤ date.year by omega)
        have above := yearStart_le_number written.day_pos
        have first : yearStart 1 = 0 := rfl
        omega
      have positive := written.month_pos
      have day := written.day_pos
      rw [Date.number, year] at early
      have month : date.month = 1 := by
        by_contra later
        have february := @monthStart_lt 0 1 date.month (by decide) (by omega)
        have january : monthLength 0 1 = 31 := rfl
        omega
      have january : monthStart 0 1 = 0 := rfl
      rw [month] at early
      exact ⟨rfl, year, month, by omega⟩
    · rintro ⟨-, year, month, days⟩
      have january : monthStart 0 1 = 0 := rfl
      rw [Date.number, year, month]
      omega

theorem paddedInt_nonneg {width : Nat} {n : Int} (nonneg : 0 ≤ n) :
    paddedInt width n = String.ofList (zeroPadded width n.toNat) := by
  rw [paddedInt, if_neg (by omega)]
  congr 2
  omega

theorem keyText_eq_dateText {date : Date} (nonneg : 0 ≤ date.year) : keyText date = dateText date := by
  have month : paddedInt 2 date.month = String.ofList (zeroPadded 2 date.month) := by
    rw [paddedInt_nonneg (Int.natCast_nonneg _), Int.toNat_natCast]
  have day : paddedInt 2 date.day = String.ofList (zeroPadded 2 date.day) := by
    rw [paddedInt_nonneg (Int.natCast_nonneg _), Int.toNat_natCast]
  rw [keyText, dateText, paddedInt_nonneg nonneg, month, day, String.ofList_append, String.ofList_append]

theorem bucketKeyForDate_negative {date : Date} (negative : date.year < 0) (interval : CalendarInterval) :
    bucketKeyForDate (.string (keyText date)) interval = none := by
  have sign : ¬ (keyText date).toList.all Char.isDigit := by
    rw [keyText, paddedInt, if_pos negative]
    simp
  rw [bucketKeyForDate]
  simp only [Value.asStr, Option.bind_eq_bind, Option.bind_some, if_pos (Or.inr sign)]

theorem truncate_truncate (interval : CalendarInterval) (date : Date) :
    truncate interval (truncate interval date) = truncate interval date := by
  cases interval with
  | day => rfl
  | month => rfl
  | year => rfl
  | week =>
    have monday := weekStart_monday date
    unfold Monday at monday
    change weekStart (weekStart date) = weekStart date
    rw [weekStart, monday, Int.sub_zero]
    exact ofNumber_number (ofNumber_valid _)

theorem bucketKeyForDate_key {date : Date} (written : DateDigits date) (interval : CalendarInterval)
    (nonneg : 0 ≤ (truncate interval date).year) :
    bucketKeyForDate (.string (keyText (truncate interval date))) interval =
      some (keyText (truncate interval date)) := by
  have key := @truncate_keyDate interval date written
  refine bucketKeyForDate_ok.mpr ⟨truncate interval date, ?_, keyText_eq_dateText nonneg, ?_⟩
  · exact ⟨nonneg, key.year_lt, key.month_pos, key.month_le, key.day_pos, key.day_le⟩
  · rw [truncate_truncate]

/-- Keys are in the order of their dates; the year before the year zero has a sign, which comes first. -/
theorem keyText_lt_of_before {a b : Date} (key : KeyDate a) (key' : KeyDate b) (before : a.Before b) :
    keyText a < keyText b := by
  have low := key.year_ge
  have high := key'.year_lt
  have years : a.year = b.year ∨ (paddedInt 4 a.year).toList < (paddedInt 4 b.year).toList ∧
      (paddedInt 4 a.year).toList.length = (paddedInt 4 b.year).toList.length := by
    by_cases same : a.year = b.year
    · exact .inl same
    · right
      have less : a.year < b.year := by
        unfold Date.Before at before
        omega
      have wide : ∀ n, n < 10000 → (zeroPadded 4 n).length = 4 := fun n small =>
        zeroPadded_length small (by decide)
      rw [@paddedInt_nonneg 4 b.year (by omega), String.toList_ofList]
      by_cases negative : a.year < 0
      · have one : a.year = -1 := by omega
        have sign : (paddedInt 4 (-1)).toList = ['-', '0', '0', '1'] := by decide
        rw [one, sign]
        have length := wide b.year.toNat (by omega)
        have digits := fun c => @zeroPadded_isDigit 4 b.year.toNat c
        cases text : zeroPadded 4 b.year.toNat with
        | nil => exact absurd text (zeroPadded_ne_nil _ _)
        | cons c rest =>
          rw [text] at length digits
          have digit := Char.isDigit_iff_toNat.mp (digits c List.mem_cons_self)
          refine ⟨List.cons_lt_cons_iff.mpr (.inl ?_), length.symm⟩
          change '-'.toNat < c.toNat
          have minus : '-'.toNat = 45 := rfl
          have zero : '0'.toNat = 48 := rfl
          omega
      · rw [@paddedInt_nonneg 4 a.year (by omega), String.toList_ofList]
        refine ⟨zeroPadded_lt (by omega) (by omega) (by decide), ?_⟩
        rw [wide _ (by omega), wide _ (by omega)]
  have two : ∀ n : Nat, (paddedInt 2 n).toList = zeroPadded 2 n := by
    intro n
    rw [paddedInt_nonneg (Int.natCast_nonneg _), String.toList_ofList, Int.toNat_natCast]
  have wide : ∀ n, n ≤ 31 → (zeroPadded 2 n).length = 2 := fun n small =>
    zeroPadded_length (lt_of_le_of_lt small (by decide)) (by decide)
  have months : a.month ≤ 31 ∧ b.month ≤ 31 :=
    ⟨key.month_le.trans (by decide), key'.month_le.trans (by decide)⟩
  rw [String.lt_iff_toList_lt, keyText, keyText]
  simp only [String.toList_append, two, List.append_assoc]
  obtain year | ⟨less, length⟩ := years
  · rw [year]
    apply List.append_left_lt
    obtain earlier | ⟨-, month | ⟨month, day⟩⟩ := before
    · exact absurd year earlier.ne
    · apply append_lt_append
      · rw [wide _ months.1, wide _ months.2]
      · exact zeroPadded_lt month (lt_of_le_of_lt months.2 (by decide)) (by decide)
    · rw [month]
      apply List.append_left_lt
      exact zeroPadded_lt day (lt_of_le_of_lt key'.day_le (by decide)) (by decide)
  · exact append_lt_append length less _ _

theorem keyText_le_iff {a b : Date} (key : KeyDate a) (key' : KeyDate b) :
    keyText a ≤ keyText b ↔ ¬ b.Before a := by
  constructor
  · intro ordered before
    exact String.not_lt.mpr ordered (keyText_lt_of_before key' key before)
  · intro free
    rw [← String.not_lt]
    intro less
    obtain before | rfl | after := Date.before_or_eq a b
    · exact absurd less (String.lt_asymm (keyText_lt_of_before key key' before))
    · exact absurd less (String.lt_irrefl _)
    · exact free after

/- A day past the end of its month stands before a day of the next month, though a Monday comes after
that day and no later than the first. -/
def Misordered (a b : Date) : Prop :=
  b.year = a.year ∧ b.month = a.month + 1 ∧
    ∃ day, b.day < day ∧ monthLength a.year a.month + day ≤ a.day ∧ Monday ⟨a.year, a.month + 1, day⟩

/-- Only a day past the end of its month lies after a date that is later in the calendar's order. -/
theorem number_lt_of_not_before {a b : Date} (written : DateDigits a) (written' : DateDigits b)
    (free : ¬ b.Before a) (below : b.number < a.number) :
    b.year = a.year ∧ b.month = a.month + 1 ∧
      a.number = b.number + (a.day - monthLength a.year a.month) - b.day := by
  have year : b.year = a.year := by
    by_contra other
    unfold Date.Before at free
    have start := yearStart_lt (show a.year < b.year by omega)
    have inside := written.number_lt
    have after := yearStart_le_number written'.day_pos
    omega
  have month : b.month = a.month + 1 := by
    have day := written.day_le
    have day' := written'.day_pos
    unfold Date.Before at free
    rw [Date.number, Date.number, year] at below
    by_contra other
    obtain same | further : b.month = a.month ∨ a.month + 1 < b.month := by omega
    · rw [same] at below free
      omega
    · have first := @monthStart_lt a.year a.month (a.month + 1) written.month_pos (by omega)
      have second := @monthStart_lt a.year (a.month + 1) b.month (by omega) further
      have lengths := (monthLength_le a.year a.month).1
      have lengths' := (monthLength_le a.year (a.month + 1)).1
      omega
  refine ⟨year, month, ?_⟩
  rw [Date.number, Date.number, year, month, monthStart_succ written.month_pos]
  push_cast
  ring

theorem truncate_week_le {a b : Date} (written : DateDigits a) (written' : DateDigits b)
    (free : ¬ b.Before a) : ¬ (weekStart b).Before (weekStart a) ↔ ¬ Misordered a b := by
  have weeks : (weekStart b).Before (weekStart a) ↔
      (weekStart b).number < (weekStart a).number := by
    constructor
    · exact number_lt_of_before (ofNumber_valid _) (ofNumber_valid _).day_pos
    · intro less
      obtain before | same | after := Date.before_or_eq (weekStart b) (weekStart a)
      · exact before
      · rw [same] at less
        exact absurd less (lt_irrefl _)
      · have more := number_lt_of_before (ofNumber_valid _) (ofNumber_valid _).day_pos after
        exact absurd less (lt_asymm more)
  rw [not_iff_not, weeks, number_weekStart, number_weekStart]
  have counted : ∀ day, Date.number ⟨a.year, a.month + 1, day⟩ =
      yearStart a.year + monthStart a.year a.month + monthLength a.year a.month + day - 1 := by
    intro day
    rw [Date.number, monthStart_succ written.month_pos]
    push_cast
    ring
  constructor
  · intro less
    have below : b.number < a.number := by omega
    obtain ⟨year, month, apart⟩ := number_lt_of_not_before written written' free below
    have past : monthLength a.year a.month + b.day < a.day := by omega
    -- the Monday of the first date's week, as a day of the second one's month
    obtain ⟨days, monday⟩ : ∃ days : Nat, (days : Int) = a.number % 7 :=
      ⟨(a.number % 7).toNat, Int.toNat_of_nonneg (Int.emod_nonneg _ (by decide))⟩
    have shift : a.number = yearStart a.year + monthStart a.year a.month + a.day - 1 := rfl
    refine ⟨year, month, a.day - monthLength a.year a.month - days, ?_, ?_, ?_⟩
    · omega
    · omega
    · have number := counted (a.day - monthLength a.year a.month - days)
      rw [Monday, number]
      omega
  · rintro ⟨year, month, day, after, within, monday⟩
    have number := counted day
    have number' := counted b.day
    have same : b = ⟨a.year, a.month + 1, b.day⟩ := by
      rw [Date.ext_iff]
      exact ⟨year, month, rfl⟩
    rw [← same] at number'
    rw [Monday, number] at monday
    have shift : a.number = yearStart a.year + monthStart a.year a.month + a.day - 1 := rfl
    omega

theorem truncate_le {interval : CalendarInterval} {a b : Date} (written : DateDigits a)
    (written' : DateDigits b) (free : ¬ b.Before a) :
    ¬ (truncate interval b).Before (truncate interval a) ↔ ¬ (interval = .week ∧ Misordered a b) := by
  cases interval with
  | day => simpa [truncate] using free
  | month =>
    simp only [truncate, Date.Before] at free ⊢
    simp
    omega
  | year =>
    simp only [truncate, Date.Before] at free ⊢
    simp
    omega
  | week => simpa [truncate] using truncate_week_le written written' free

theorem DateDigits.keyDate {date : Date} (written : DateDigits date) : KeyDate date :=
  @truncate_keyDate .day date written

theorem dateText_le_iff {a b : Date} (written : DateDigits a) (written' : DateDigits b) :
    dateText a ≤ dateText b ↔ ¬ b.Before a := by
  rw [← keyText_eq_dateText written.year_nonneg, ← keyText_eq_dateText written'.year_nonneg]
  exact keyText_le_iff written.keyDate written'.keyDate

theorem dateText_injective {a b : Date} (written : DateDigits a) (written' : DateDigits b)
    (same : dateText a = dateText b) : a = b := by
  obtain ⟨-, -, year, month, day⟩ := written.digits
  obtain ⟨-, -, year', month', day'⟩ := written'.digits
  rw [same] at year month day
  exact Date.ext (year.symm.trans year') (month.symm.trans month') (day.symm.trans day')

def WeekBeforeZero (text : String) : Prop := text = "00000101" ∨ text = "00000102"

theorem weekBeforeZero_iff {date : Date} (written : DateDigits date) :
    WeekBeforeZero (dateText date) ↔ date.year = 0 ∧ date.month = 1 ∧ date.day ≤ 2 := by
  have first : dateText ⟨0, 1, 1⟩ = "00000101" := by decide +kernel
  have second : dateText ⟨0, 1, 2⟩ = "00000102" := by decide +kernel
  have digits : DateDigits ⟨0, 1, 1⟩ ∧ DateDigits ⟨0, 1, 2⟩ :=
    ⟨⟨by decide, by decide, by decide, by decide, by decide, by decide⟩,
      ⟨by decide, by decide, by decide, by decide, by decide, by decide⟩⟩
  rw [WeekBeforeZero, ← first, ← second]
  constructor
  · rintro (same | same)
    · rw [dateText_injective written digits.1 same]
      decide
    · rw [dateText_injective written digits.2 same]
      decide
  · rintro ⟨year, month, days⟩
    obtain one | two : date.day = 1 ∨ date.day = 2 := by
      have positive := written.day_pos
      omega
    · have same : date = ⟨0, 1, 1⟩ := Date.ext year month one
      rw [same]
      exact .inl rfl
    · have same : date = ⟨0, 1, 2⟩ := Date.ext year month two
      rw [same]
      exact .inr rfl

def MisorderedTexts (text text' : String) : Prop :=
  ∃ a b, DateDigits a ∧ DateDigits b ∧ text = dateText a ∧ text' = dateText b ∧ Misordered a b

theorem bucketKeyForDate_again {text key : String} {interval : CalendarInterval}
    (accepted : bucketKeyForDate (.string text) interval = some key) :
    (¬ (interval = .week ∧ WeekBeforeZero text) → bucketKeyForDate (.string key) interval = some key) ∧
      (interval = .week ∧ WeekBeforeZero text → bucketKeyForDate (.string key) interval = none) := by
  obtain ⟨date, written, rfl, rfl⟩ := bucketKeyForDate_ok.mp accepted
  rw [weekBeforeZero_iff written, ← truncate_negative written]
  constructor
  · intro nonneg
    exact bucketKeyForDate_key written interval (not_lt.mp nonneg)
  · intro negative
    exact bucketKeyForDate_negative negative interval

theorem bucketKeyForDate_le {text text' key key' : String} {interval : CalendarInterval}
    (accepted : bucketKeyForDate (.string text) interval = some key)
    (accepted' : bucketKeyForDate (.string text') interval = some key') (ordered : text ≤ text') :
    key ≤ key' ↔ ¬ (interval = .week ∧ MisorderedTexts text text') := by
  obtain ⟨a, written, rfl, rfl⟩ := bucketKeyForDate_ok.mp accepted
  obtain ⟨b, written', rfl, rfl⟩ := bucketKeyForDate_ok.mp accepted'
  have free := (dateText_le_iff written written').mp ordered
  have texts : MisorderedTexts (dateText a) (dateText b) ↔ Misordered a b := by
    constructor
    · rintro ⟨c, d, digits, digits', same, same', wrong⟩
      rw [dateText_injective written digits same, dateText_injective written' digits' same']
      exact wrong
    · intro wrong
      exact ⟨a, b, written, written', rfl, rfl, wrong⟩
  rw [keyText_le_iff (truncate_keyDate written) (truncate_keyDate written'), texts]
  exact truncate_le written written' free

/-- The two counts of days agree with the calendar, and with them the Monday of a week. Keys are dates
again, and in the order of the dates, but for two weeks that are before the year zero, and but for days
past the end of a month. -/
theorem calendar_arithmetic (interval : CalendarInterval) :
    (∀ date : Date, date.Valid →
      civilFromDays (daysFromCivil date.year date.month date.day) =
        (date.year, (date.month : Int), (date.day : Int))) ∧
    (∀ a b : Date, a.Valid → b.Valid → a.Before b →
      daysFromCivil a.year a.month a.day < daysFromCivil b.year b.month b.day) ∧
    (∀ date : Date, date.Valid → 1 ≤ date.year → date.year < 10000 →
      ∃ days, parseYyyymmddToDays (dateText date) = some days ∧
        daysFromCivil date.year date.month date.day = days - 719162) ∧
    (∀ date : Date, date.Valid → ∃ monday : Date, monday.Valid ∧
      weekAnchorMonday date.year date.month date.day =
        (monday.year, (monday.month : Int), (monday.day : Int)) ∧
      ∀ other : Date, other.Valid → (other = monday ↔
        Monday other ∧ date.number - 7 < other.number ∧ other.number ≤ date.number)) ∧
    (∀ text key, bucketKeyForDate (.string text) interval = some key →
      ((∃ again, bucketKeyForDate (.string key) interval = some again) ↔
        ¬ (interval = .week ∧ WeekBeforeZero text)) ∧
      (bucketKeyForDate (.string key) interval = some key ↔
        ¬ (interval = .week ∧ WeekBeforeZero text))) ∧
    (∀ text text' key key', bucketKeyForDate (.string text) interval = some key →
      bucketKeyForDate (.string text') interval = some key' → text ≤ text' →
      (key ≤ key' ↔ ¬ (interval = .week ∧ MisorderedTexts text text'))) := by
  refine ⟨fun _ valid => civilFromDays_daysFromCivil valid, ?_, ?_, ?_, ?_, ?_⟩
  · intro a b valid valid' before
    rw [daysFromCivil_eq valid.month_pos valid.month_le, daysFromCivil_eq valid'.month_pos valid'.month_le]
    exact Int.sub_lt_sub_right (number_lt_of_before valid valid'.day_pos before) _
  · intro date valid low high
    exact ⟨date.number, parseYyyymmddToDays_dateText valid low high,
      daysFromCivil_eq valid.month_pos valid.month_le⟩
  · intro date valid
    refine ⟨weekStart date, ofNumber_valid _, weekAnchorMonday_eq valid.month_pos valid.month_le, ?_⟩
    intro other real
    constructor
    · rintro rfl
      refine ⟨weekStart_monday date, ?_⟩
      rw [number_weekStart]
      omega
    · rintro ⟨monday, above, below⟩
      exact weekStart_unique real monday above below
  · intro text key accepted
    obtain ⟨kept, lost⟩ := bucketKeyForDate_again accepted
    by_cases early : interval = .week ∧ WeekBeforeZero text
    · rw [lost early]
      simp [early]
    · rw [kept early]
      simp [early]
  · intro text text' key key' accepted accepted' ordered
    exact bucketKeyForDate_le accepted accepted' ordered

/-- The first day of the year zero gets a key with a sign. The 31st of February, which is the third of
March, gets a later Monday than the first of March. -/
theorem not_calendar_arithmetic :
    bucketKeyForDate (.string "00000101") .week = some "-0011227" ∧
      bucketKeyForDate (.string "-0011227") .week = none ∧
      bucketKeyForDate (.string "20260231") .week = some "20260302" ∧
      bucketKeyForDate (.string "20260301") .week = some "20260223" ∧
      "20260231" ≤ "20260301" ∧ ¬ "20260302" ≤ "20260223" := by
  decide +kernel

end Keys

end Surch.Api
