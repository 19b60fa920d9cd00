import Surch.Lib.Calendar
import Surch.Slm.Cron

/-! The search for the next fire time. On seconds, every jump passes over seconds that do not fire; the
loop makes these jumps on the instants of a calendar, and ends with the least one that fires. -/
namespace Surch.Slm
open Surch.Lib Surch.Lib.Calendar

section Skipping

variable {α : Type} [LinearOrder α] {P : α → Prop}

def Skips (P : α → Prop) (a b : α) : Prop := a < b ∧ ∀ x, a ≤ x → x < b → ¬ P x

def FirstFrom (P : α → Prop) (limit a : α) : Option α → Prop
  | some x => (a ≤ x ∧ x ≤ limit ∧ P x) ∧ ∀ y, a ≤ y → P y → x ≤ y
  | none => ∀ y, a ≤ y → P y → limit < y

theorem FirstFrom.skip {limit a b : α} {result : Option α} (skips : Skips P a b)
    (first : FirstFrom P limit b result) : FirstFrom P limit a result := by
  obtain ⟨below, nothing⟩ := skips
  have later {y : α} (from_a : a ≤ y) (holds : P y) : b ≤ y := by
    by_contra early
    exact nothing y from_a (not_le.mp early) holds
  cases result with
  | some x =>
    obtain ⟨⟨from_b, within, holds⟩, least⟩ := first
    exact ⟨⟨below.le.trans from_b, within, holds⟩, fun y from_a other => least y (later from_a other) other⟩
  | none => exact fun y from_a holds => first y (later from_a holds) holds

end Skipping

section Seconds

variable (schedule : CronSchedule)

def dateAt (s : Int) : Date := ofNumber (s / 86400 + 719162)

def CronSchedule.FiresAt (s : Int) : Prop :=
  (dateAt s).month ∈ schedule.months ∧ (dateAt s).day ∈ schedule.daysOfMonth ∧
    ((s / 86400 + 719163) % 7).toNat ∈ schedule.daysOfWeek ∧
    (s % 86400 / 3600).toNat ∈ schedule.hours ∧ (s % 3600 / 60).toNat ∈ schedule.minutes ∧
    (s % 60).toNat ∈ schedule.seconds

def firstOfNextMonth (date : Date) : Date :=
  if date.month = 12 then ⟨date.year + 1, 1, 1⟩ else ⟨date.year, date.month + 1, 1⟩

def startOf (date : Date) : Int := (date.number - 719162) * 86400

def CronSchedule.jump (s : Int) : Option Int :=
  if (dateAt s).month ∉ schedule.months then some (startOf (firstOfNextMonth (dateAt s)))
  else if (dateAt s).day ∉ schedule.daysOfMonth ∨
      ((s / 86400 + 719163) % 7).toNat ∉ schedule.daysOfWeek then some ((s / 86400 + 1) * 86400)
  else if (s % 86400 / 3600).toNat ∉ schedule.hours then some ((s / 3600 + 1) * 3600)
  else if (s % 3600 / 60).toNat ∉ schedule.minutes then some ((s / 60 + 1) * 60)
  else if (s % 60).toNat ∉ schedule.seconds then some (s + 1)
  else none

theorem dateAt_valid (s : Int) : (dateAt s).Valid := ofNumber_valid _

theorem number_dateAt (s : Int) : (dateAt s).number = s / 86400 + 719162 := number_ofNumber _

theorem firstOfNextMonth_valid {date : Date} (valid : date.Valid) : (firstOfNextMonth date).Valid := by
  have inside := valid.month_le
  unfold firstOfNextMonth
  split
  · refine ⟨Nat.le_refl _, Nat.le_add_left _ _, Nat.le_refl _, ?_⟩
    exact (show 1 ≤ 28 by decide).trans (monthLength_le _ _).1
  · refine ⟨Nat.le_add_left _ _, ?_, Nat.le_refl _, ?_⟩
    · dsimp only
      omega
    · exact (show 1 ≤ 28 by decide).trans (monthLength_le _ _).1

theorem before_firstOfNextMonth (date : Date) : date.Before (firstOfNextMonth date) := by
  unfold firstOfNextMonth Date.Before
  split
  · left
    dsimp only
    omega
  · right
    dsimp only
    omega

theorem number_firstOfNextMonth_le {date : Date} (valid : date.Valid) :
    (firstOfNextMonth date).number ≤ date.number + 31 := by
  have length := (monthLength_le date.year date.month).2
  have positive := valid.day_pos
  unfold firstOfNextMonth Date.number
  split
  · rename_i december
    have whole := monthStart_year date.year
    have start := yearStart_succ date.year
    have january : monthStart (date.year + 1) 1 = 0 := rfl
    rw [december] at length ⊢
    dsimp only
    rw [january]
    omega
  · have next := @monthStart_succ date.year _ valid.month_pos
    dsimp only
    omega

theorem month_ofNumber {date : Date} (valid : date.Valid) {n : Int} (after : date.number ≤ n)
    (before : n < (firstOfNextMonth date).number) : (ofNumber n).month = date.month := by
  have number := number_ofNumber n
  have inside := (ofNumber_valid n).month_le
  have month := (ofNumber_valid n).month_pos
  have not_less : ¬ (ofNumber n).Before date := by
    intro less
    have below := number_lt_of_before (ofNumber_valid n) valid.day_pos less
    omega
  have less : (ofNumber n).Before (firstOfNextMonth date) := by
    have next := firstOfNextMonth_valid valid
    obtain less | same | more := Date.before_or_eq (ofNumber n) (firstOfNextMonth date)
    · exact less
    · rw [same] at number
      omega
    · have above := number_lt_of_before next (ofNumber_valid n).day_pos more
      omega
  have positive := (ofNumber_valid n).day_pos
  have within := valid.month_le
  unfold Date.Before at not_less less
  unfold firstOfNextMonth at less
  split at less <;> dsimp only at less <;> omega

theorem skips_month {s : Int} (other : (dateAt s).month ∉ schedule.months) :
    Skips schedule.FiresAt s (startOf (firstOfNextMonth (dateAt s))) := by
  have number := number_dateAt s
  have before := number_lt_of_before (dateAt_valid s) (firstOfNextMonth_valid (dateAt_valid s)).day_pos
    (before_firstOfNextMonth (dateAt s))
  unfold startOf
  refine ⟨by omega, fun x from_s below fires => other ?_⟩
  have same := @month_ofNumber _ (dateAt_valid s) (x / 86400 + 719162) (by omega) (by omega)
  rw [← same]
  exact fires.1

theorem skips_day {s : Int} (other : (dateAt s).day ∉ schedule.daysOfMonth ∨
    ((s / 86400 + 719163) % 7).toNat ∉ schedule.daysOfWeek) :
    Skips schedule.FiresAt s ((s / 86400 + 1) * 86400) := by
  refine ⟨by omega, fun x from_s below fires => ?_⟩
  have same : x / 86400 = s / 86400 := by omega
  obtain ⟨-, day, weekday, -⟩ := fires
  rw [dateAt, same] at day
  rw [same] at weekday
  obtain wrong | wrong := other
  · exact wrong day
  · exact wrong weekday

theorem skips_hour {s : Int} (other : (s % 86400 / 3600).toNat ∉ schedule.hours) :
    Skips schedule.FiresAt s ((s / 3600 + 1) * 3600) := by
  refine ⟨by omega, fun x from_s below fires => other ?_⟩
  have block : x / 3600 = s / 3600 := by omega
  have same : x % 86400 / 3600 = s % 86400 / 3600 := by omega
  rw [← same]
  exact fires.2.2.2.1

theorem skips_minute {s : Int} (other : (s % 3600 / 60).toNat ∉ schedule.minutes) :
    Skips schedule.FiresAt s ((s / 60 + 1) * 60) := by
  refine ⟨by omega, fun x from_s below fires => other ?_⟩
  have block : x / 60 = s / 60 := by omega
  have same : x % 3600 / 60 = s % 3600 / 60 := by omega
  rw [← same]
  exact fires.2.2.2.2.1

theorem skips_second {s : Int} (other : (s % 60).toNat ∉ schedule.seconds) :
    Skips schedule.FiresAt s (s + 1) := by
  refine ⟨by omega, fun x from_s below fires => other ?_⟩
  have same : x = s := by omega
  rw [← same]
  exact fires.2.2.2.2.2

theorem jump_some {s next : Int} (jumps : schedule.jump s = some next) :
    Skips schedule.FiresAt s next ∧ next ≤ s + 31 * 86400 := by
  unfold CronSchedule.jump at jumps
  split at jumps
  · rename_i month
    obtain rfl := Option.some.inj jumps
    have close := number_firstOfNextMonth_le (dateAt_valid s)
    rw [number_dateAt] at close
    refine ⟨skips_month schedule month, ?_⟩
    unfold startOf
    omega
  · split at jumps
    · rename_i day
      obtain rfl := Option.some.inj jumps
      exact ⟨skips_day schedule day, by omega⟩
    · split at jumps
      · rename_i hour
        obtain rfl := Option.some.inj jumps
        exact ⟨skips_hour schedule hour, by omega⟩
      · split at jumps
        · rename_i minute
          obtain rfl := Option.some.inj jumps
          exact ⟨skips_minute schedule minute, by omega⟩
        · split at jumps
          · rename_i second
            obtain rfl := Option.some.inj jumps
            exact ⟨skips_second schedule second, by omega⟩
          · cases jumps

theorem jump_none {s : Int} : schedule.jump s = none ↔ schedule.FiresAt s := by
  unfold CronSchedule.jump CronSchedule.FiresAt
  grind

end Seconds

section Instants

variable {T : Type} [LinearOrder T]

def secondOf (nanos : Int) : Int := nanos / 1000000000

/- The calendar keeps to UTC, for instants between two bounds. -/
structure Chrono.Correct (chrono : Chrono T) (nanos : T → Int) (lo hi : Int) : Prop where
  lt_iff : ∀ a b, a < b ↔ nanos a < nanos b
  plusSeconds : ∀ t seconds, lo ≤ nanos t + 1000000000 * seconds →
    nanos t + 1000000000 * seconds ≤ hi →
      nanos (chrono.plusSeconds t seconds) = nanos t + 1000000000 * seconds
  date : ∀ t, Date.mk (chrono.year t) (chrono.month t) (chrono.day t) = dateAt (secondOf (nanos t))
  hour : ∀ t, chrono.hour t = (secondOf (nanos t) % 86400 / 3600).toNat
  minute : ∀ t, chrono.minute t = (secondOf (nanos t) % 3600 / 60).toNat
  second : ∀ t, chrono.second t = (secondOf (nanos t) % 60).toNat
  numDaysFromSunday : ∀ t,
    chrono.numDaysFromSunday t = ((secondOf (nanos t) / 86400 + 719163) % 7).toNat
  withYmdAndHms : ∀ (date : Date) (hour minute second : Nat), date.Valid → hour < 24 → minute < 60 →
    second < 60 → lo ≤ 1000000000 * (startOf date + 3600 * hour + 60 * minute + second) →
      1000000000 * (startOf date + 3600 * hour + 60 * minute + second) ≤ hi →
        ∃ t, chrono.withYmdAndHms date.year date.month date.day hour minute second = some t ∧
          nanos t = 1000000000 * (startOf date + 3600 * hour + 60 * minute + second)
  nextDate : ∀ date : Date, date.Valid → lo ≤ 1000000000 * (startOf date + 86400) →
    1000000000 * (startOf date + 86400) ≤ hi →
      chrono.nextDate date.year date.month date.day =
        some ((ofNumber (date.number + 1)).year, (ofNumber (date.number + 1)).month,
          (ofNumber (date.number + 1)).day)

def Whole (nanos : T → Int) (t : T) : Prop := nanos t % 1000000000 = 0

def slack : Int := 1000000000 * (32 * 86400)

structure Room (nanos : T → Int) (lo hi : Int) (t : T) : Prop where
  above : lo + slack ≤ nanos t
  below : nanos t + slack ≤ hi

variable {chrono : Chrono T} {nanos : T → Int} {lo hi : Int} {cursor : T}

namespace Chrono.Correct

variable (correct : chrono.Correct nanos lo hi)
include correct

theorem parts (t : T) : chrono.year t = (dateAt (secondOf (nanos t))).year ∧
    chrono.month t = (dateAt (secondOf (nanos t))).month ∧
    chrono.day t = (dateAt (secondOf (nanos t))).day := by
  rw [← correct.date t]
  exact ⟨rfl, rfl, rfl⟩

theorem fires_iff (schedule : CronSchedule) (t : T) :
    schedule.Fires chrono t ↔ schedule.FiresAt (secondOf (nanos t)) := by
  obtain ⟨-, month, day⟩ := correct.parts t
  rw [CronSchedule.Fires, CronSchedule.FiresAt, month, day, correct.numDaysFromSunday, correct.hour,
    correct.minute, correct.second]

theorem withYmdAndHms_cursor (room : Room nanos lo hi cursor) {hour minute second : Nat}
    (hours : hour < 24) (minutes : minute < 60) (seconds : second < 60) :
    ∃ t, chrono.withYmdAndHms (chrono.year cursor) (chrono.month cursor) (chrono.day cursor) hour minute
        second = some t ∧
      nanos t = 1000000000 *
        (secondOf (nanos cursor) / 86400 * 86400 + 3600 * hour + 60 * minute + second) := by
  obtain ⟨above, below⟩ := room
  obtain ⟨year, month, day⟩ := correct.parts cursor
  have start : startOf (dateAt (secondOf (nanos cursor))) = secondOf (nanos cursor) / 86400 * 86400 := by
    rw [startOf, number_dateAt]
    omega
  rw [year, month, day, ← start]
  unfold slack at above below
  apply correct.withYmdAndHms _ _ _ _ (dateAt_valid _) hours minutes seconds
  · rw [start]
    unfold secondOf
    omega
  · rw [start]
    unfold secondOf
    omega

theorem wholeSecond (room : Room nanos lo hi cursor) :
    ∃ t, chrono.wholeSecond cursor = some t ∧ nanos t = 1000000000 * secondOf (nanos cursor) := by
  rw [Chrono.wholeSecond, correct.hour, correct.minute, correct.second]
  obtain ⟨t, found, at_second⟩ := correct.withYmdAndHms_cursor room
    (show (secondOf (nanos cursor) % 86400 / 3600).toNat < 24 by omega)
    (show (secondOf (nanos cursor) % 3600 / 60).toNat < 60 by omega)
    (show (secondOf (nanos cursor) % 60).toNat < 60 by omega)
  refine ⟨t, found, at_second.trans ?_⟩
  omega

theorem advanceToNextMinute (room : Room nanos lo hi cursor) :
    ∃ t, chrono.advanceToNextMinute cursor = some t ∧
      nanos t = 1000000000 * ((secondOf (nanos cursor) / 60 + 1) * 60) := by
  rw [Chrono.advanceToNextMinute, correct.hour, correct.minute]
  obtain ⟨t, found, at_second⟩ := correct.withYmdAndHms_cursor room
    (show (secondOf (nanos cursor) % 86400 / 3600).toNat < 24 by omega)
    (show (secondOf (nanos cursor) % 3600 / 60).toNat < 60 by omega) (show 0 < 60 by decide)
  have near : nanos t = 1000000000 * (secondOf (nanos cursor) / 60 * 60) := at_second.trans (by omega)
  obtain ⟨above, below⟩ := room
  unfold slack at above below
  rw [found]
  refine ⟨_, rfl, ?_⟩
  rw [correct.plusSeconds, near]
  · ring
  · unfold secondOf at near
    omega
  · unfold secondOf at near
    omega

theorem advanceToNextHour (room : Room nanos lo hi cursor) :
    ∃ t, chrono.advanceToNextHour cursor = some t ∧
      nanos t = 1000000000 * ((secondOf (nanos cursor) / 3600 + 1) * 3600) := by
  rw [Chrono.advanceToNextHour, correct.hour]
  obtain ⟨t, found, at_second⟩ := correct.withYmdAndHms_cursor room
    (show (secondOf (nanos cursor) % 86400 / 3600).toNat < 24 by omega) (show 0 < 60 by decide)
    (show 0 < 60 by decide)
  have near : nanos t = 1000000000 * (secondOf (nanos cursor) / 3600 * 3600) :=
    at_second.trans (by omega)
  obtain ⟨above, below⟩ := room
  unfold slack at above below
  rw [found]
  refine ⟨_, rfl, ?_⟩
  rw [correct.plusSeconds, near]
  · ring
  · unfold secondOf at near
    omega
  · unfold secondOf at near
    omega

theorem advanceToNextDay (room : Room nanos lo hi cursor) :
    ∃ t, chrono.advanceToNextDay cursor = some t ∧
      nanos t = 1000000000 * ((secondOf (nanos cursor) / 86400 + 1) * 86400) := by
  obtain ⟨above, below⟩ := room
  unfold slack at above below
  obtain ⟨year, month, day⟩ := correct.parts cursor
  have number := number_dateAt (secondOf (nanos cursor))
  have start : startOf (dateAt (secondOf (nanos cursor))) = secondOf (nanos cursor) / 86400 * 86400 := by
    rw [startOf, number]
    omega
  have start_next : startOf (ofNumber ((dateAt (secondOf (nanos cursor))).number + 1)) =
      (secondOf (nanos cursor) / 86400 + 1) * 86400 := by
    rw [startOf, number_ofNumber, number]
    omega
  have next := correct.nextDate (dateAt (secondOf (nanos cursor))) (dateAt_valid _)
    (by rw [start]; unfold secondOf; omega) (by rw [start]; unfold secondOf; omega)
  have there := correct.withYmdAndHms (ofNumber ((dateAt (secondOf (nanos cursor))).number + 1)) 0 0 0
    (ofNumber_valid _) (by decide) (by decide) (by decide)
    (by rw [start_next]; unfold secondOf; omega) (by rw [start_next]; unfold secondOf; omega)
  obtain ⟨t, found, at_second⟩ := there
  rw [Chrono.advanceToNextDay, year, month, day, next]
  refine ⟨t, found, at_second.trans ?_⟩
  rw [start_next]
  omega

theorem advanceToNextMonth (room : Room nanos lo hi cursor) :
    ∃ t, chrono.advanceToNextMonth cursor = some t ∧
      nanos t = 1000000000 * startOf (firstOfNextMonth (dateAt (secondOf (nanos cursor)))) := by
  obtain ⟨above, below⟩ := room
  unfold slack at above below
  obtain ⟨year, month, -⟩ := correct.parts cursor
  have number := number_dateAt (secondOf (nanos cursor))
  have valid := dateAt_valid (secondOf (nanos cursor))
  have close := number_firstOfNextMonth_le valid
  have later := number_lt_of_before valid (firstOfNextMonth_valid valid).day_pos
    (before_firstOfNextMonth (dateAt (secondOf (nanos cursor))))
  have there := correct.withYmdAndHms (firstOfNextMonth (dateAt (secondOf (nanos cursor)))) 0 0 0
    (firstOfNextMonth_valid valid) (by decide) (by decide) (by decide)
    (by unfold startOf; unfold secondOf at *; omega) (by unfold startOf; unfold secondOf at *; omega)
  obtain ⟨t, found, at_second⟩ := there
  have same : chrono.advanceToNextMonth cursor =
      chrono.withYmdAndHms (firstOfNextMonth (dateAt (secondOf (nanos cursor)))).year
        (firstOfNextMonth (dateAt (secondOf (nanos cursor)))).month
        (firstOfNextMonth (dateAt (secondOf (nanos cursor)))).day 0 0 0 := by
    rw [Chrono.advanceToNextMonth, year, month, firstOfNextMonth]
    split <;> rfl
  rw [same]
  refine ⟨t, found, at_second.trans ?_⟩
  omega

end Chrono.Correct

end Instants

section Turns

variable {T : Type} [LinearOrder T] (chrono : Chrono T) (schedule : CronSchedule)

namespace CronSchedule

/- The jump of one turn; none if the cursor fires. -/
def advance (cursor : T) : Option (Option T) :=
  if chrono.month cursor ∉ schedule.months then some (chrono.advanceToNextMonth cursor)
  else if chrono.day cursor ∉ schedule.daysOfMonth ∨
      chrono.numDaysFromSunday cursor ∉ schedule.daysOfWeek then some (chrono.advanceToNextDay cursor)
  else if chrono.hour cursor ∉ schedule.hours then some (chrono.advanceToNextHour cursor)
  else if chrono.minute cursor ∉ schedule.minutes then some (chrono.advanceToNextMinute cursor)
  else if chrono.second cursor ∉ schedule.seconds then some (some (chrono.plusSeconds cursor 1))
  else none

def turns (limit : T) : Nat → T → Option (Option T)
  | 0, _ => none
  | fuel + 1, cursor =>
    if limit < cursor then some none
    else match schedule.advance chrono cursor with
      | none => some (some cursor)
      | some none => some none
      | some (some next) => turns limit fuel next

theorem search_succ (limit : T) (fuel : Nat) (cursor : T) :
    schedule.search chrono limit (fuel + 1) cursor =
      if limit < cursor then none
      else match schedule.advance chrono cursor with
        | none => some cursor
        | some next => next.bind (schedule.search chrono limit fuel) := by
  rw [search, advance]
  split
  · rfl
  · split
    · rfl
    · split
      · rfl
      · split
        · rfl
        · split
          · rfl
          · split <;> rfl

theorem search_of_turns {limit : T} {fuel : Nat} {cursor : T} {result : Option T}
    (ended : schedule.turns chrono limit fuel cursor = some result) :
    schedule.search chrono limit fuel cursor = result := by
  induction fuel generalizing cursor with
  | zero => cases ended
  | succ fuel ih =>
    rw [search_succ]
    rw [turns] at ended
    split at ended
    · rename_i past
      rw [if_pos past]
      exact Option.some.inj ended
    · rename_i within
      rw [if_neg within]
      cases step : schedule.advance chrono cursor with
      | none =>
        rw [step] at ended
        exact Option.some.inj ended
      | some next =>
        rw [step] at ended
        cases next with
        | none => exact Option.some.inj ended
        | some next => exact ih ended

variable {chrono schedule} {nanos : T → Int} {lo hi : Int} (correct : chrono.Correct nanos lo hi)
include correct

theorem advance_of_jump {cursor : T} (whole : Whole nanos cursor) (room : Room nanos lo hi cursor) :
    (schedule.jump (secondOf (nanos cursor)) = none ∧ schedule.advance chrono cursor = none) ∨
      ∃ s next, schedule.jump (secondOf (nanos cursor)) = some s ∧
        schedule.advance chrono cursor = some (some next) ∧ nanos next = 1000000000 * s := by
  obtain ⟨-, month, day⟩ := correct.parts cursor
  rw [jump, advance, month, day, correct.numDaysFromSunday, correct.hour, correct.minute, correct.second]
  split
  · obtain ⟨next, found, at_second⟩ := correct.advanceToNextMonth room
    exact .inr ⟨_, next, rfl, congrArg some found, at_second⟩
  · split
    · obtain ⟨next, found, at_second⟩ := correct.advanceToNextDay room
      exact .inr ⟨_, next, rfl, congrArg some found, at_second⟩
    · split
      · obtain ⟨next, found, at_second⟩ := correct.advanceToNextHour room
        exact .inr ⟨_, next, rfl, congrArg some found, at_second⟩
      · split
        · obtain ⟨next, found, at_second⟩ := correct.advanceToNextMinute room
          exact .inr ⟨_, next, rfl, congrArg some found, at_second⟩
        · split
          · refine .inr ⟨_, _, rfl, rfl, ?_⟩
            obtain ⟨above, below⟩ := room
            unfold slack at above below
            unfold Whole at whole
            rw [correct.plusSeconds cursor 1 (by omega) (by omega)]
            unfold secondOf
            omega
          · exact .inl ⟨rfl, rfl⟩

theorem limit_lt_iff {limit cursor : T} (whole : Whole nanos cursor) :
    limit < cursor ↔ secondOf (nanos limit) < secondOf (nanos cursor) := by
  rw [correct.lt_iff]
  unfold Whole at whole
  unfold secondOf
  omega

/-- The loop ends, on the first second from the cursor on that fires: every turn takes a second or more
off the way to the limit. -/
theorem turns_first {limit : T} (inside : nanos limit + slack ≤ hi) {fuel : Nat} {cursor : T}
    (whole : Whole nanos cursor) (above : lo + slack ≤ nanos cursor)
    (enough : secondOf (nanos limit) - secondOf (nanos cursor) + 1 ≤ fuel) :
    ∃ result, schedule.turns chrono limit (fuel + 1) cursor = some result ∧
      (∀ t ∈ result, Whole nanos t) ∧
      FirstFrom schedule.FiresAt (secondOf (nanos limit)) (secondOf (nanos cursor))
        (result.map fun t => secondOf (nanos t)) := by
  induction fuel generalizing cursor with
  | zero =>
    have past : limit < cursor := (limit_lt_iff correct whole).mpr (by omega)
    refine ⟨none, by rw [turns, if_pos past], by simp, fun y from_cursor _ => ?_⟩
    omega
  | succ fuel ih =>
    rw [turns]
    by_cases past : limit < cursor
    · have beyond := (limit_lt_iff correct whole).mp past
      refine ⟨none, if_pos past, by simp, fun y from_cursor _ => ?_⟩
      omega
    · have within : secondOf (nanos cursor) ≤ secondOf (nanos limit) :=
        not_lt.mp fun beyond => past ((limit_lt_iff correct whole).mpr beyond)
      have room : Room nanos lo hi cursor := by
        refine ⟨above, ?_⟩
        have before : ¬ nanos limit < nanos cursor := fun less => past ((correct.lt_iff _ _).mpr less)
        omega
      rw [if_neg past]
      obtain ⟨fires, step⟩ | ⟨s, next, jumps, step, at_second⟩ := advance_of_jump correct whole room
      · rw [step]
        rw [jump_none] at fires
        refine ⟨some cursor, rfl, ?_, ⟨le_refl _, within, fires⟩, fun y from_cursor _ => from_cursor⟩
        intro t same
        cases same
        exact whole
      · rw [step]
        obtain ⟨skips, -⟩ := jump_some schedule jumps
        have second_next : secondOf (nanos next) = s := by
          rw [at_second, secondOf, Int.mul_ediv_cancel_left _ (by decide)]
        have later := skips.1
        have whole_next : Whole nanos next := by
          rw [Whole, at_second, Int.mul_emod_right]
        have above_next : lo + slack ≤ nanos next := by
          unfold Whole at whole
          unfold secondOf at later
          omega
        obtain ⟨result, ended, wholes, first⟩ := ih whole_next above_next (by omega)
        rw [second_next] at first
        exact ⟨result, ended, wholes, first.skip skips⟩

/-- The search ends, with the least whole second strictly after the instant that fires, if there is one up
to 1464 days later. -/
theorem next_fire_first {after : T} (above : lo + slack ≤ nanos after)
    (below : nanos after + 1000000000 * searchBound + slack ≤ hi) :
    (∃ cursor, chrono.wholeSecond (chrono.plusSeconds after 1) = some cursor ∧
      schedule.turns chrono (chrono.plusSeconds after searchBound) (searchBound + 1) cursor =
        some (schedule.nextFireAfter chrono after)) ∧
    FirstFrom (fun t => Whole nanos t ∧ after < t ∧ schedule.Fires chrono t)
      (chrono.plusSeconds after searchBound) after (schedule.nextFireAfter chrono after) := by
  have bound : (searchBound : Int) = 126489600 := rfl
  unfold slack at above below
  rw [bound] at below
  have first_second := correct.plusSeconds after 1 (by omega) (by omega)
  have limit := correct.plusSeconds after searchBound (by omega) (by omega)
  have start : Room nanos lo hi (chrono.plusSeconds after 1) := by
    constructor
    · unfold slack
      omega
    · unfold slack
      omega
  obtain ⟨cursor, found, at_second⟩ := correct.wholeSecond start
  have whole : Whole nanos cursor := by
    rw [Whole, at_second, Int.mul_emod_right]
  have second_cursor : secondOf (nanos cursor) = secondOf (nanos after) + 1 := by
    rw [at_second, first_second]
    unfold secondOf
    omega
  have second_limit : secondOf (nanos (chrono.plusSeconds after searchBound)) =
      secondOf (nanos after) + searchBound := by
    rw [limit]
    unfold secondOf
    omega
  obtain ⟨result, ended, wholes, first⟩ := @turns_first _ _ chrono schedule nanos lo hi correct
    (chrono.plusSeconds after searchBound) (by unfold slack; omega) searchBound cursor whole
    (by unfold slack; unfold secondOf at second_cursor; omega) (by rw [second_cursor, second_limit]; omega)
  have returned : schedule.nextFireAfter chrono after = result := by
    rw [nextFireAfter, found]
    exact search_of_turns chrono schedule ended
  rw [returned]
  refine ⟨⟨cursor, found, ended⟩, ?_⟩
  -- an instant after the given one is at or behind the cursor, if it is whole
  have behind : ∀ t, Whole nanos t → (after < t ↔ secondOf (nanos cursor) ≤ secondOf (nanos t)) := by
    intro t whole_t
    rw [limit_lt_iff correct whole_t, second_cursor]
    omega
  cases result with
  | some q =>
    obtain ⟨⟨from_cursor, within, fires⟩, least⟩ := first
    have whole_q := wholes q rfl
    have later : after < q := (behind q whole_q).mpr from_cursor
    have inside : q ≤ chrono.plusSeconds after searchBound := by
      rw [← not_lt, limit_lt_iff correct whole_q]
      exact not_lt.mpr within
    refine ⟨⟨later.le, inside, whole_q, later, (correct.fires_iff schedule q).mpr fires⟩, ?_⟩
    rintro y - ⟨whole_y, after_y, fires_y⟩
    rw [← not_lt, limit_lt_iff correct whole_q]
    exact not_lt.mpr (least _ ((behind y whole_y).mp after_y) ((correct.fires_iff schedule y).mp fires_y))
  | none =>
    rintro y - ⟨whole_y, after_y, fires_y⟩
    rw [limit_lt_iff correct whole_y]
    exact first _ ((behind y whole_y).mp after_y) ((correct.fires_iff schedule y).mp fires_y)

end CronSchedule

end Turns

section Gregorian

theorem civilOfDays_eq (days : Int) :
    civilOfDays days = ((ofNumber (days + 719162)).year, (ofNumber (days + 719162)).month,
      (ofNumber (days + 719162)).day) := by
  have shifted : days + 719162 + 306 = days + 719468 := by omega
  rw [ofNumber, shifted]
  rfl

theorem daysOfCivil_eq {date : Date} (valid : date.Valid) :
    daysOfCivil date.year date.month date.day = date.number - 719162 := by
  have inside := valid.month_le
  have positive := valid.month_pos
  have day := valid.day_pos
  -- the month and the year, counted from March
  obtain ⟨month, few, counted, civil, year⟩ : ∃ month, month ≤ 11 ∧
      (if date.month > 2 then date.month - 3 else date.month + 9) = month ∧
      civilMonth month = date.month ∧
      (if date.month ≤ 2 then date.year - 1 else date.year) + (if date.month ≤ 2 then 1 else 0) =
        date.year := by
    refine ⟨if date.month > 2 then date.month - 3 else date.month + 9, ?_, rfl, ?_, ?_⟩
    · split <;> omega
    · unfold civilMonth
      split <;> split <;> omega
    · split <;> omega
  have number := @number_march (if date.month ≤ 2 then date.year - 1 else date.year) month date.day few
  rw [civil, year] at number
  simp only [daysOfCivil, counted]
  generalize (if date.month ≤ 2 then date.year - 1 else date.year) = shifted at number ⊢
  have era := marchStart_era (shifted % 400) (shifted / 400)
  have whole : shifted % 400 + shifted / 400 * 400 = shifted := Int.emod_add_ediv_mul _ _
  have none : shifted % 400 / 400 = 0 := by omega
  have inside_era : marchStart (shifted % 400) =
      365 * (shifted % 400) + shifted % 400 / 4 - shifted % 400 / 100 := by
    rw [marchStart, none, Int.add_zero]
  rw [whole, inside_era] at era
  rw [era] at number
  change Date.number date + 306 = _ at number
  omega

theorem daysOfDate_eq {date : Date} (valid : date.Valid) :
    daysOfDate date.year date.month date.day = some (date.number - 719162) := by
  have back : civilOfDays (daysOfCivil date.year date.month date.day) =
      (date.year, date.month, date.day) := by
    rw [daysOfCivil_eq valid, civilOfDays_eq, Int.sub_add_cancel, ofNumber_number valid]
  rw [daysOfDate, if_pos back, daysOfCivil_eq valid]

theorem gregorian_correct (lo hi : Int) : gregorian.Correct (fun t => 1000000 * t) lo hi := by
  have second (t : Int) : secondOf (1000000 * t) = secondsOf t := by
    unfold secondOf secondsOf
    omega
  have day (t : Int) : secondsOf t / 86400 = daysOf t := by
    unfold secondsOf daysOf
    omega
  constructor
  case lt_iff =>
    intro a b
    omega
  case plusSeconds =>
    intro t seconds _ _
    change 1000000 * (t + 1000 * seconds) = _
    omega
  case date =>
    intro t
    rw [second, dateAt, day]
    change Date.mk (civilOfDays (daysOf t)).1 (civilOfDays (daysOf t)).2.1 (civilOfDays (daysOf t)).2.2 = _
    rw [civilOfDays_eq]
  case hour =>
    intro t
    rw [second]
    change secondsOfDay t / 3600 = _
    unfold secondsOfDay
    omega
  case minute =>
    intro t
    rw [second]
    change secondsOfDay t % 3600 / 60 = _
    unfold secondsOfDay
    omega
  case second =>
    intro t
    rw [second]
    change secondsOfDay t % 60 = _
    unfold secondsOfDay
    omega
  case numDaysFromSunday =>
    intro t
    rw [second, day]
    change ((daysOf t + 4) % 7).toNat = _
    omega
  case withYmdAndHms =>
    intro date hour minute second valid hours minutes seconds _ _
    have inside : hour < 24 ∧ minute < 60 ∧ second < 60 := ⟨hours, minutes, seconds⟩
    refine ⟨1000 * ((date.number - 719162) * 86400 + 3600 * hour + 60 * minute + second), ?_, ?_⟩
    · simp only [gregorian, if_pos inside, daysOfDate_eq valid, Option.bind_eq_bind, Option.bind_some]
      rfl
    · unfold startOf
      omega
  case nextDate =>
    intro date valid _ _
    change (daysOfDate date.year date.month date.day).map (fun days => civilOfDays (days + 1)) = _
    have next : date.number - 719162 + 1 + 719162 = date.number + 1 := by omega
    rw [daysOfDate_eq valid, Option.map_some, civilOfDays_eq, next]

def mondays : CronSchedule where
  seconds := [0]
  minutes := [30]
  hours := [1]
  daysOfMonth := List.range' 1 31
  months := List.range' 1 12
  daysOfWeek := [1]
  hadSeconds := false

/-- From noon on 2026-05-16, a Saturday. -/
theorem next_fire_first_mondays :
    FirstFrom (fun t => Whole (fun t => 1000000 * t) t ∧ 1778932800000 < t ∧ mondays.Fires gregorian t)
      (gregorian.plusSeconds 1778932800000 CronSchedule.searchBound) 1778932800000
      (some 1779067800000) := by
  have found : mondays.nextFireAfter gregorian 1778932800000 = some 1779067800000 := by decide +kernel
  have first := (@CronSchedule.next_fire_first _ _ gregorian mondays _ _ _
    (gregorian_correct (-10 ^ 24) (10 ^ 24)) 1778932800000 (by decide) (by decide)).2
  rwa [found] at first

end Gregorian

end Surch.Slm
