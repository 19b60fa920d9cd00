import Mathlib.Data.Int.Order.Basic
import Mathlib.Tactic.IntervalCases
import Mathlib.Tactic.Ring

/-! The proleptic Gregorian calendar: dates, and the numbers of their days, counted from 0001-01-01. The
number of a date is a sum over years and months; the date of a number comes out of eras of 400 years that
start in March. -/
namespace Surch.Lib.Calendar

@[ext] structure Date where
  year : Int
  month : Nat
  day : Nat
deriving DecidableEq

section Years

def Leap (year : Int) : Prop := year % 4 = 0 ∧ year % 100 ≠ 0 ∨ year % 400 = 0

instance (year : Int) : Decidable (Leap year) := inferInstanceAs (Decidable (_ ∨ _))

def yearLength (year : Int) : Nat := if Leap year then 366 else 365

/- The days from the first of January of the year one to that of `year`. -/
def yearStart (year : Int) : Int :=
  365 * (year - 1) + (year - 1) / 4 - (year - 1) / 100 + (year - 1) / 400

theorem yearStart_succ (year : Int) : yearStart (year + 1) = yearStart year + yearLength year := by
  unfold yearStart yearLength
  by_cases leap : Leap year
  · rw [if_pos leap]
    unfold Leap at leap
    omega
  · rw [if_neg leap]
    unfold Leap at leap
    omega

theorem yearStart_mono {year later : Int} (before : year ≤ later) : yearStart year ≤ yearStart later := by
  unfold yearStart
  omega

theorem yearStart_lt {year later : Int} (before : year < later) :
    yearStart year + yearLength year ≤ yearStart later := by
  rw [← yearStart_succ]
  exact yearStart_mono before

end Years

section Months

def monthLength (year : Int) (month : Nat) : Nat :=
  if month = 2 then if Leap year then 29 else 28
  else if month = 4 ∨ month = 6 ∨ month = 9 ∨ month = 11 then 30
  else 31

theorem monthLength_le (year : Int) (month : Nat) :
    28 ≤ monthLength year month ∧ monthLength year month ≤ 31 := by
  unfold monthLength
  split
  · split <;> omega
  · split <;> omega

def monthStart (year : Int) : Nat → Nat
  | 0 => 0
  | 1 => 0
  | month + 2 => monthStart year (month + 1) + monthLength year (month + 1)

theorem monthStart_succ {year : Int} {month : Nat} (positive : 1 ≤ month) :
    monthStart year (month + 1) = monthStart year month + monthLength year month := by
  obtain ⟨month, rfl⟩ := Nat.exists_eq_add_of_le' positive
  rfl

theorem monthStart_lt {year : Int} {month later : Nat} (positive : 1 ≤ month) (before : month < later) :
    monthStart year month + monthLength year month ≤ monthStart year later := by
  induction before with
  | refl => exact (monthStart_succ positive).ge
  | @step later below ih =>
    have further : month + 1 ≤ later := below
    rw [monthStart_succ (by omega)]
    exact ih.trans (Nat.le_add_right _ _)

/-- Beyond February the months repeat with 153 days in five of them. -/
theorem monthStart_march {year : Int} {month : Nat} (from_march : 3 ≤ month) (inside : month ≤ 12) :
    monthStart year month + 306 = yearLength year + (153 * (month - 3) + 2) / 5 := by
  unfold yearLength
  split <;> rename_i leap <;> interval_cases month <;> simp [monthStart, monthLength, leap]

theorem monthStart_year (year : Int) : monthStart year 12 + monthLength year 12 = yearLength year := by
  have december := @monthStart_march year 12 (by decide) (by decide)
  rw [monthLength, if_neg (by decide), if_neg (by decide)]
  omega

end Months

section Dates

structure Date.Valid (date : Date) : Prop where
  month_pos : 1 ≤ date.month
  month_le : date.month ≤ 12
  day_pos : 1 ≤ date.day
  day_le : date.day ≤ monthLength date.year date.month

def Date.Before (a b : Date) : Prop :=
  a.year < b.year ∨ a.year = b.year ∧ (a.month < b.month ∨ a.month = b.month ∧ a.day < b.day)

/- A day past the end of its month runs on into the next one. -/
def Date.number (date : Date) : Int :=
  yearStart date.year + monthStart date.year date.month + date.day - 1

theorem Date.before_or_eq (a b : Date) : a.Before b ∨ a = b ∨ b.Before a := by
  have parts : a = b ↔ a.year = b.year ∧ a.month = b.month ∧ a.day = b.day := by
    rw [Date.ext_iff]
  unfold Date.Before
  rw [parts]
  omega

theorem number_lt_yearStart {date : Date} (valid : date.Valid) :
    date.number < yearStart date.year + yearLength date.year := by
  have inside : monthStart date.year date.month + monthLength date.year date.month ≤
      yearLength date.year := by
    rw [← monthStart_year]
    obtain below | last := valid.month_le.lt_or_eq
    · exact (monthStart_lt valid.month_pos below).trans (Nat.le_add_right _ _)
    · rw [last]
  have day := valid.day_le
  unfold Date.number
  omega

theorem yearStart_le_number {date : Date} (positive : 1 ≤ date.day) :
    yearStart date.year ≤ date.number := by
  unfold Date.number
  omega

theorem year_lt_of_number_lt {date : Date} (valid : date.Valid) {year : Int}
    (below : date.number < yearStart year) : date.year < year := by
  by_contra above
  have start := yearStart_mono (not_lt.mp above)
  have inside := yearStart_le_number valid.day_pos
  omega

theorem year_le_of_le_number {date : Date} (valid : date.Valid) {year : Int}
    (above : yearStart year ≤ date.number) : year ≤ date.year := by
  by_contra below
  have start := yearStart_lt (not_le.mp below)
  have inside := number_lt_yearStart valid
  omega

theorem number_lt_of_before {a b : Date} (valid : a.Valid) (positive : 1 ≤ b.day)
    (before : a.Before b) : a.number < b.number := by
  obtain years | ⟨year, months⟩ := before
  · calc a.number < yearStart a.year + yearLength a.year := number_lt_yearStart valid
      _ ≤ yearStart b.year := yearStart_lt years
      _ ≤ b.number := yearStart_le_number positive
  · unfold Date.number
    rw [year]
    obtain months | ⟨month, days⟩ := months
    · have start := @monthStart_lt b.year _ _ valid.month_pos months
      have day := valid.day_le
      rw [year] at day
      omega
    · rw [month]
      omega

theorem number_injective {a b : Date} (valid : a.Valid) (valid' : b.Valid)
    (same : a.number = b.number) : a = b := by
  obtain before | equal | after := Date.before_or_eq a b
  · exact absurd same (number_lt_of_before valid valid'.day_pos before).ne
  · exact equal
  · exact absurd same (number_lt_of_before valid' valid.day_pos after).ne'

end Dates

section Eras

def yearOfEra (dayOfEra : Nat) : Nat :=
  (dayOfEra - dayOfEra / 1460 + dayOfEra / 36524 - dayOfEra / 146096) / 365

def dayOfYear (dayOfEra : Nat) : Nat :=
  dayOfEra - (365 * yearOfEra dayOfEra + yearOfEra dayOfEra / 4 - yearOfEra dayOfEra / 100)

/-- A day of an era lies in a century, in four years of it, and in one year of these. -/
theorem exists_year_of_era {dayOfEra : Nat} (inside : dayOfEra < 146097) :
    ∃ century fours year day, century ≤ 3 ∧ fours ≤ 24 ∧ year ≤ 3 ∧ day ≤ 365 ∧
      (day = 365 → year = 3 ∧ (fours < 24 ∨ century = 3)) ∧
      dayOfEra = 36524 * century + 1461 * fours + 365 * year + day := by
  obtain ⟨century, rest, few, within, last, split⟩ : ∃ century rest, century ≤ 3 ∧ rest ≤ 36524 ∧
      (rest = 36524 → century = 3) ∧ dayOfEra = 36524 * century + rest := by
    by_cases final : dayOfEra = 146096
    · exact ⟨3, 36524, by omega, by omega, by omega, by omega⟩
    · exact ⟨dayOfEra / 36524, dayOfEra % 36524, by omega, by omega, by omega, by omega⟩
  obtain ⟨year, day, short, some_days, leap, parts⟩ : ∃ year day, year ≤ 3 ∧ day ≤ 365 ∧
      (day = 365 → year = 3) ∧ rest % 1461 = 365 * year + day := by
    by_cases final : rest % 1461 = 1460
    · exact ⟨3, 365, by omega, by omega, by omega, by omega⟩
    · exact ⟨rest % 1461 / 365, rest % 1461 % 365, by omega, by omega, by omega, by omega⟩
  refine ⟨century, rest / 1461, year, day, few, by omega, short, some_days, ?_, by omega⟩
  intro long
  refine ⟨leap long, ?_⟩
  have three := leap long
  omega

/-- Days are taken out for the leap days passed and put back for the centuries, so that 365 divides. -/
theorem yearOfEra_eq {dayOfEra century fours year day : Nat} (few : century ≤ 3) (below : fours ≤ 24)
    (short : year ≤ 3) (some_days : day ≤ 365)
    (long : day = 365 → year = 3 ∧ (fours < 24 ∨ century = 3))
    (split : dayOfEra = 36524 * century + 1461 * fours + 365 * year + day) :
    yearOfEra dayOfEra = 100 * century + 4 * fours + year := by
  have centuries : dayOfEra / 36524 = century + dayOfEra / 146096 := by
    by_cases last : dayOfEra = 146096
    · omega
    · have none : dayOfEra / 146096 = 0 := Nat.div_eq_of_lt (by omega)
      rw [none]
      omega
  have quads : dayOfEra / 1460 = 25 * century + fours ∨
      dayOfEra / 1460 = 25 * century + fours + 1 := by
    omega
  have before : dayOfEra / 1460 = 25 * century + fours → day ≤ 364 := by
    omega
  have after : dayOfEra / 1460 = 25 * century + fours + 1 → 1 ≤ day := by
    omega
  have days : dayOfEra - dayOfEra / 1460 + dayOfEra / 36524 - dayOfEra / 146096 =
      dayOfEra + century - dayOfEra / 1460 := by
    rw [centuries]
    omega
  rw [yearOfEra, days]
  apply Nat.div_eq_of_lt_le
  · obtain none | one := quads
    · omega
    · omega
  · obtain none | one := quads
    · have fits := before none
      omega
    · omega

theorem yearOfEra_spec {dayOfEra : Nat} (inside : dayOfEra < 146097) :
    yearOfEra dayOfEra < 400 ∧ dayOfYear dayOfEra ≤ 365 ∧
      (dayOfYear dayOfEra = 365 → Leap (yearOfEra dayOfEra + 1)) ∧
      dayOfEra + yearOfEra dayOfEra / 100 =
        365 * yearOfEra dayOfEra + yearOfEra dayOfEra / 4 + dayOfYear dayOfEra := by
  obtain ⟨century, fours, year, day, few, below, short, some_days, long, split⟩ :=
    exists_year_of_era inside
  have found := yearOfEra_eq few below short some_days long split
  have cycles : (100 * century + 4 * fours + year) / 4 = 25 * century + fours ∧
      (100 * century + 4 * fours + year) / 100 = century := by
    constructor
    · omega
    · omega
  have rest : dayOfYear dayOfEra = day := by
    rw [dayOfYear, found, cycles.1, cycles.2, split]
    omega
  rw [rest, found, cycles.1, cycles.2]
  refine ⟨by omega, some_days, ?_, by omega⟩
  intro last
  obtain ⟨rfl, full⟩ := long last
  unfold Leap
  push_cast
  omega

def shiftedMonth (dayOfYear : Nat) : Nat := (5 * dayOfYear + 2) / 153

def civilMonth (month : Nat) : Nat := if month < 10 then month + 3 else month - 9

def ofEra (era : Int) (dayOfEra : Nat) : Date where
  year := yearOfEra dayOfEra + era * 400 +
    (if civilMonth (shiftedMonth (dayOfYear dayOfEra)) ≤ 2 then 1 else 0)
  month := civilMonth (shiftedMonth (dayOfYear dayOfEra))
  day := dayOfYear dayOfEra - (153 * shiftedMonth (dayOfYear dayOfEra) + 2) / 5 + 1

def ofNumber (n : Int) : Date := ofEra ((n + 306) / 146097) ((n + 306) % 146097).toNat

def marchStart (year : Int) : Int := 365 * year + year / 4 - year / 100 + year / 400

theorem yearStart_march (year : Int) : yearStart (year + 1) = marchStart year := by
  unfold yearStart marchStart
  rw [Int.add_sub_cancel]

theorem marchStart_era (year era : Int) :
    marchStart (year + era * 400) = marchStart year + 146097 * era := by
  unfold marchStart
  have four : (year + era * 400) / 4 = year / 4 + era * 100 := by omega
  have hundred : (year + era * 400) / 100 = year / 100 + era * 4 := by omega
  have all : (year + era * 400) / 400 = year / 400 + era := by omega
  rw [four, hundred, all]
  ring

/-- In years that start in March, the months are in front of the day that a leap year adds. -/
theorem number_march {year : Int} {month day : Nat} (inside : month ≤ 11) :
    Date.number
      { year := year + (if civilMonth month ≤ 2 then 1 else 0)
        month := civilMonth month
        day := day } + 306 = marchStart year + ((153 * month + 2) / 5 : Nat) + day - 1 := by
  unfold Date.number civilMonth
  have next := yearStart_march year
  by_cases early : month < 10
  · have start := @monthStart_march year (month + 3) (by omega) (by omega)
    rw [yearStart_succ] at next
    simp only [if_pos early, if_neg (show ¬ month + 3 ≤ 2 by omega), Int.add_zero,
      Nat.add_sub_cancel] at start ⊢
    omega
  · simp only [if_neg early, if_pos (show month - 9 ≤ 2 by omega)]
    have start : monthStart (year + 1) (month - 9) + 306 = (153 * month + 2) / 5 := by
      obtain rfl | rfl : month = 10 ∨ month = 11 := by omega
      · rfl
      · rfl
    omega

theorem shiftedMonth_spec {dayOfYear : Nat} (inside : dayOfYear ≤ 365) :
    shiftedMonth dayOfYear ≤ 11 ∧ (153 * shiftedMonth dayOfYear + 2) / 5 ≤ dayOfYear ∧
      dayOfYear < (153 * (shiftedMonth dayOfYear + 1) + 2) / 5 := by
  unfold shiftedMonth
  refine ⟨?_, ?_, ?_⟩ <;> omega

theorem monthLength_shifted {year : Int} {month : Nat} (early : month ≤ 10) :
    (153 * (month + 1) + 2) / 5 - (153 * month + 2) / 5 =
      monthLength year (civilMonth month) := by
  interval_cases month <;> rfl

/-- February is the last month of such a year, and the leap day its last. -/
theorem monthLength_february {dayOfYear : Nat} (inside : dayOfYear ≤ 365) {year : Int}
    (leap : dayOfYear = 365 → Leap year) :
    dayOfYear - (153 * 11 + 2) / 5 + 1 ≤ monthLength year 2 := by
  rw [monthLength, if_pos rfl]
  by_cases long : Leap year
  · rw [if_pos long]
    omega
  · rw [if_neg long]
    have short : dayOfYear ≠ 365 := fun last => long (leap last)
    omega

theorem leap_era {year era : Int} : Leap (year + era * 400 + 1) ↔ Leap (year + 1) := by
  have four : (year + era * 400 + 1) % 4 = (year + 1) % 4 := by omega
  have hundred : (year + era * 400 + 1) % 100 = (year + 1) % 100 := by omega
  have all : (year + era * 400 + 1) % 400 = (year + 1) % 400 := by omega
  rw [Leap, Leap, four, hundred, all]

theorem ofEra_valid (era : Int) {dayOfEra : Nat} (inside : dayOfEra < 146097) :
    (ofEra era dayOfEra).Valid := by
  obtain ⟨-, within, leap, -⟩ := yearOfEra_spec inside
  unfold ofEra
  have february : dayOfYear dayOfEra - (153 * 11 + 2) / 5 + 1 ≤
      monthLength (yearOfEra dayOfEra + era * 400 + 1) 2 :=
    monthLength_february within fun last => leap_era.mpr (leap last)
  obtain ⟨months, above, below⟩ := shiftedMonth_spec within
  generalize shiftedMonth (dayOfYear dayOfEra) = month at months above below ⊢
  have civil : 1 ≤ civilMonth month ∧ civilMonth month ≤ 12 := by
    unfold civilMonth
    split <;> omega
  refine ⟨civil.1, civil.2, Nat.le_add_left _ _, ?_⟩
  obtain rfl | early : month = 11 ∨ month ≤ 10 := by omega
  · exact february
  · change dayOfYear dayOfEra - (153 * month + 2) / 5 + 1 ≤ monthLength _ (civilMonth month)
    rw [← monthLength_shifted early]
    omega

theorem number_ofEra (era : Int) {dayOfEra : Nat} (inside : dayOfEra < 146097) :
    (ofEra era dayOfEra).number + 306 = 146097 * era + dayOfEra := by
  obtain ⟨few, within, -, split⟩ := yearOfEra_spec inside
  obtain ⟨months, above, -⟩ := shiftedMonth_spec within
  have start : marchStart (yearOfEra dayOfEra) = 365 * yearOfEra dayOfEra +
      (yearOfEra dayOfEra / 4 : Nat) - (yearOfEra dayOfEra / 100 : Nat) := by
    have none : (yearOfEra dayOfEra : Int) / 400 = 0 := by omega
    rw [marchStart, none]
    simp
  rw [ofEra, number_march months, marchStart_era, start]
  generalize (153 * shiftedMonth (dayOfYear dayOfEra) + 2) / 5 = days at above ⊢
  have taken : ((dayOfYear dayOfEra - days + 1 : Nat) : Int) = dayOfYear dayOfEra - days + 1 := by
    omega
  rw [taken]
  omega

theorem dayOfEra_lt (n : Int) : ((n + 306) % 146097).toNat < 146097 := by
  omega

theorem ofNumber_valid (n : Int) : (ofNumber n).Valid := ofEra_valid _ (dayOfEra_lt n)

theorem number_ofNumber (n : Int) : (ofNumber n).number = n := by
  have counted := number_ofEra ((n + 306) / 146097) (dayOfEra_lt n)
  rw [Int.toNat_of_nonneg (Int.emod_nonneg _ (by decide)), Int.mul_ediv_add_emod] at counted
  exact add_right_cancel counted

theorem ofNumber_number {date : Date} (valid : date.Valid) : ofNumber date.number = date :=
  number_injective (ofNumber_valid _) valid (number_ofNumber _)

end Eras

end Surch.Lib.Calendar
