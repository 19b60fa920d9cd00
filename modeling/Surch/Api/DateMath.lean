import Surch.Lib.Calendar
import Surch.Lib.Lines
import Surch.Slm.Scheduler

/-! `parse_date_math`: the date of `now` shifted by a number of days, weeks, months or years. The text is
cut at byte positions, and the number goes through machine integers; both can end in a panic. -/
namespace Surch.Api
open Surch.Lib Surch.Lib.Calendar Surch.Postings Surch.Slm

section Dates

structure NaiveDate where
  date : Date
  valid : date.Valid
  low : -262143 ≤ date.year
  high : date.year ≤ 262142

namespace NaiveDate

def OnCalendar (year : Int) : Prop := -262143 ≤ year ∧ year ≤ 262142

instance (year : Int) : Decidable (OnCalendar year) := inferInstanceAs (Decidable (_ ∧ _))

def shiftDays (anchor : NaiveDate) (days : Int) : Option NaiveDate :=
  if inside : OnCalendar (ofNumber (anchor.date.number + days)).year then
    some ⟨ofNumber (anchor.date.number + days), ofNumber_valid _, inside.1, inside.2⟩
  else none

def monthIndex (anchor : NaiveDate) : Int := 12 * anchor.date.year + (anchor.date.month - 1)

def inMonth (anchor : NaiveDate) (index : Int) : Date where
  year := index / 12
  month := (index % 12).toNat + 1
  day := min anchor.date.day (monthLength (index / 12) ((index % 12).toNat + 1))

theorem inMonth_valid (anchor : NaiveDate) (index : Int) : (anchor.inMonth index).Valid := by
  have long := (monthLength_le (index / 12) ((index % 12).toNat + 1)).1
  have positive := anchor.valid.day_pos
  refine ⟨Nat.le_add_left _ _, ?_, ?_, Nat.min_le_right _ _⟩
  · change (index % 12).toNat + 1 ≤ 12
    omega
  · change 1 ≤ min anchor.date.day (monthLength (index / 12) ((index % 12).toNat + 1))
    omega

def shiftMonths (anchor : NaiveDate) (months : Int) : Option NaiveDate :=
  if inside : OnCalendar (anchor.inMonth (anchor.monthIndex + months)).year then
    some ⟨anchor.inMonth (anchor.monthIndex + months), anchor.inMonth_valid _, inside.1, inside.2⟩
  else none

theorem shiftDays_far {anchor : NaiveDate} {days : Int} (far : days ≤ -2 ^ 31 ∨ 2 ^ 31 ≤ days) :
    anchor.shiftDays days = none := by
  have start : -100000000 ≤ yearStart (-262143) := by decide
  have stop : yearStart (262142 + 1) ≤ 100000000 := by decide
  have above := (yearStart_mono anchor.low).trans (yearStart_le_number anchor.valid.day_pos)
  have below := (number_lt_yearStart anchor.valid).trans_le (yearStart_lt (Int.lt_add_one_of_le anchor.high))
  have outside : ¬ OnCalendar (ofNumber (anchor.date.number + days)).year := by
    rintro ⟨low, high⟩
    have number := number_ofNumber (anchor.date.number + days)
    have above' := (yearStart_mono low).trans (yearStart_le_number (ofNumber_valid _).day_pos)
    have below' := (number_lt_yearStart (ofNumber_valid _)).trans_le
      (yearStart_lt (Int.lt_add_one_of_le high))
    omega
  rw [shiftDays, dif_neg outside]

theorem shiftMonths_far {anchor : NaiveDate} {months : Int} (far : months ≤ -2 ^ 31 ∨ 2 ^ 31 ≤ months) :
    anchor.shiftMonths months = none := by
  have outside : ¬ OnCalendar (anchor.inMonth (anchor.monthIndex + months)).year := by
    rintro ⟨low, high⟩
    change -262143 ≤ (anchor.monthIndex + months) / 12 at low
    change (anchor.monthIndex + months) / 12 ≤ 262142 at high
    have low' := anchor.low
    have high' := anchor.high
    have month := anchor.valid.month_le
    unfold monthIndex at low high
    omega
  rw [shiftMonths, dif_neg outside]

end NaiveDate

end Dates

section Evaluation

/- What ends the thread: a cut inside a character, an addition or a product that does not fit where
overflows are checked, and a duration outside chrono's bounds. -/
inductive Panic where
  | charBoundary
  | overflow
  | duration
deriving DecidableEq

def i64Result (checks : Bool) (n : Int) : Except Panic Int :=
  if -2 ^ 63 ≤ n ∧ n < 2 ^ 63 then .ok n
  else if checks then .error .overflow
  else .ok (n.bmod (2 ^ 64))

def u32Result (checks : Bool) (n : Nat) : Except Panic Nat :=
  if n < 2 ^ 32 then .ok n
  else if checks then .error .overflow
  else .ok (n % 2 ^ 32)

def asU32 (n : Int) : Nat := (n % 2 ^ 32).toNat

/- `Duration::days` and `Duration::weeks`, in days: the milliseconds of a duration are at most the largest
`i64`. -/
def durationOf (seconds count : Int) : Except Panic Int :=
  if -9223372036854775 ≤ count * seconds ∧ count * seconds ≤ 9223372036854775 then
    .ok (count * seconds / 86400)
  else .error .duration

namespace NaiveDate

def checkedAddSigned (anchor : NaiveDate) (days : Int) : Option NaiveDate := anchor.shiftDays days

def checkedAddMonths (anchor : NaiveDate) (months : Nat) : Option NaiveDate := anchor.shiftMonths months

def checkedSubMonths (anchor : NaiveDate) (months : Nat) : Option NaiveDate :=
  anchor.shiftMonths (-(months : Int))

end NaiveDate

def applyUnit (checks : Bool) (unit : Char) (magnitude : Int) (anchor : NaiveDate) :
    Except Panic (Option NaiveDate) :=
  if unit = 'd' then do
    let days ← durationOf 86400 magnitude
    return anchor.checkedAddSigned days
  else if unit = 'w' then do
    let days ← durationOf 604800 magnitude
    return anchor.checkedAddSigned days
  else if unit = 'M' then
    if magnitude ≥ 0 then return anchor.checkedAddMonths (asU32 magnitude)
    else do
      let back ← i64Result checks (-magnitude)
      return anchor.checkedSubMonths (asU32 back)
  else if unit = 'y' then
    if magnitude ≥ 0 then do
      let months ← u32Result checks (12 * asU32 magnitude)
      return anchor.checkedAddMonths months
    else do
      let back ← i64Result checks (-magnitude)
      let months ← u32Result checks (12 * asU32 back)
      return anchor.checkedSubMonths months
  else return none

/- The sign, the number and the unit; `split_at` is at the first byte, and at the last one. -/
def evaluateOps (checks : Bool) (ops : List Char) (anchor : NaiveDate) :
    Except Panic (Option NaiveDate) :=
  match ops with
  | [] => return some anchor
  | sign :: body =>
    if sign.utf8Size ≠ 1 then .error .charBoundary
    else if sign ≠ '+' ∧ sign ≠ '-' then return none
    else match body.getLast? with
      | none => return none
      | some unit =>
        if unit.utf8Size ≠ 1 then .error .charBoundary
        else match parseI64 body.dropLast with
          | none => return none
          | some n => do
            let magnitude ← i64Result checks ((if sign = '+' then 1 else -1) * n)
            applyUnit checks unit magnitude anchor

def opsOf : List Char → Option (List Char)
  | 'n' :: 'o' :: 'w' :: rest => some (trimmed isWhitespace (rest.takeWhile (· ≠ '/')))
  | _ => none

def parseDateMath (checks : Bool) (expr : String) (anchor : NaiveDate) :
    Except Panic (Option NaiveDate) :=
  match opsOf expr.toList with
  | none => return none
  | some ops => evaluateOps checks ops anchor

end Evaluation

section Expressions

def Integer (text : List Char) (n : Int) : Prop :=
  ∃ digits, digits ≠ [] ∧ (∀ c ∈ digits, c.isDigit = true) ∧
    ((text = digits ∨ text = '+' :: digits) ∧ n = Nat.ofDigitChars 10 digits 0 ∨
      text = '-' :: digits ∧ n = -(Nat.ofDigitChars 10 digits 0 : Int))

/- `now(+|-)N unit`, with an optional `/d`; the amount has the sign that stands before the number. -/
inductive MathExpr : List Char → Int → Char → Prop
  | mk {sign : Char} {number suffix : List Char} {n : Int} {unit : Char}
    (signed : sign = '+' ∨ sign = '-') (read : Integer number n)
    (unit_known : unit = 'y' ∨ unit = 'M' ∨ unit = 'w' ∨ unit = 'd')
    (day : suffix = [] ∨ suffix = ['/', 'd']) :
    MathExpr ('n' :: 'o' :: 'w' :: sign :: (number ++ unit :: suffix))
      (if sign = '+' then n else -n) unit

def NaiveDate.shift (anchor : NaiveDate) (unit : Char) (amount : Int) : Option NaiveDate :=
  if unit = 'd' then anchor.shiftDays amount
  else if unit = 'w' then anchor.shiftDays (7 * amount)
  else if unit = 'M' then anchor.shiftMonths amount
  else anchor.shiftMonths (12 * amount)

def MathExact (checks : Bool) (expr : String) (anchor : NaiveDate) : Prop :=
  ∃ result, parseDateMath checks expr anchor = .ok result ∧
    ∀ amount unit, MathExpr expr.toList amount unit → result = anchor.shift unit amount

def cutMonths (amount factor : Int) : Int :=
  if 0 ≤ amount then factor * amount % 2 ^ 32 else -(factor * -amount % 2 ^ 32)

def FitsUnit (checks : Bool) (unit : Char) (amount : Int) : Prop :=
  (checks = true → amount < 2 ^ 63) ∧
    (unit = 'd' → -106751991167 ≤ amount ∧ amount ≤ 106751991167) ∧
    (unit = 'w' → -15250284452 ≤ amount ∧ amount ≤ 15250284452) ∧
    (checks = true → unit = 'M' → -2 ^ 63 < amount) ∧
    (checks = true → unit = 'y' → -2 ^ 63 < amount ∧ 12 * (|amount| % 2 ^ 32) < 2 ^ 32)

/- Months or years that fit a `u32`, or whose cut number leads off the calendar as well. -/
def UncutUnit (anchor : NaiveDate) (unit : Char) (amount : Int) : Prop :=
  (unit = 'M' → |amount| < 2 ^ 32 ∨ anchor.shiftMonths (cutMonths amount 1) = none) ∧
    (unit = 'y' → 12 * |amount| < 2 ^ 32 ∨ anchor.shiftMonths (cutMonths amount 12) = none)

/- The first character behind `now` and, behind a sign, the last one are single bytes; the amount fits its
unit, and of an expression it is not cut. -/
def MathFine (checks : Bool) (expr : String) (anchor : NaiveDate) : Prop :=
  ∀ ops, opsOf expr.toList = some ops →
    (∀ first ∈ ops.head?, first.utf8Size = 1) ∧
      ∀ sign number unit, ops = sign :: (number ++ [unit]) → sign = '+' ∨ sign = '-' →
        unit.utf8Size = 1 ∧ ∀ n, parseI64 number = some n →
          FitsUnit checks unit (if sign = '+' then n else -n) ∧
            ((∃ amount, MathExpr expr.toList amount unit) →
              UncutUnit anchor unit (if sign = '+' then n else -n))

variable {checks : Bool} {anchor : NaiveDate}

theorem integer_chars {text : List Char} {n : Int} (read : Integer text n) :
    ∀ c ∈ text, c.isDigit = true ∨ c = '+' ∨ c = '-' := by
  obtain ⟨digits, -, decimal, ⟨rfl | rfl, -⟩ | ⟨rfl, -⟩⟩ := read
  · exact fun c member => .inl (decimal c member)
  · intro c member
    rcases List.mem_cons.mp member with rfl | digit
    · exact .inr (.inl rfl)
    · exact .inl (decimal c digit)
  · intro c member
    rcases List.mem_cons.mp member with rfl | digit
    · exact .inr (.inr rfl)
    · exact .inl (decimal c digit)

theorem parseI64_integer {text : List Char} {n : Int} (read : Integer text n) :
    parseI64 text = if -2 ^ 63 ≤ n ∧ n < 2 ^ 63 then some n else none := by
  obtain ⟨digits, full, decimal, ⟨rfl | rfl, rfl⟩ | ⟨rfl, rfl⟩⟩ := read
  · have plain : ∀ rest, text ≠ '-' :: rest := by
      rintro rest rfl
      exact absurd (decimal '-' List.mem_cons_self) (by decide)
    rw [parseI64.eq_3 text (fun rest same => plain _ same) plain, parseUnsigned_digits full decimal]
    split <;> split <;> first | rfl | omega
  · rw [parseI64.eq_3 _ (by simp) (by simp), parseUnsigned_plus decimal,
      parseUnsigned_digits full decimal]
    split <;> split <;> first | rfl | omega
  · have plain : ∀ rest, digits ≠ '+' :: rest := by
      rintro rest rfl
      exact absurd (decimal '+' List.mem_cons_self) (by decide)
    rw [parseI64.eq_2 digits (fun rest same => plain _ same), parseUnsigned_digits full decimal]
    split <;> split <;> first | rfl | omega

theorem asU32_cast (n : Int) : (asU32 n : Int) = n % 2 ^ 32 := by
  unfold asU32
  omega

theorem parseI64_range {text : List Char} {n : Int} (parsed : parseI64 text = some n) :
    -2 ^ 63 ≤ n ∧ n < 2 ^ 63 := by
  unfold parseI64 at parsed
  split at parsed
  · cases parsed
  · obtain ⟨_, read, rfl⟩ := Option.map_eq_some_iff.mp parsed
    obtain ⟨_, read, same⟩ := Option.bind_eq_some_iff.mp read
    have value := Option.some.inj same
    have small := parseUnsigned_lt read
    omega
  · obtain ⟨k, read, rfl⟩ := Option.map_eq_some_iff.mp parsed
    have small := parseUnsigned_lt read
    change -2 ^ 63 ≤ (k : Int) ∧ (k : Int) < 2 ^ 63
    omega

theorem i64Result_back {α : Type} {m : Int} (low : -2 ^ 63 ≤ m) (below : m < 0)
    (next : Nat → Except Panic α) :
    (i64Result checks (-m) >>= fun back => next (asU32 back)) =
      if checks = true ∧ m = -2 ^ 63 then .error .overflow else next (asU32 (-m)) := by
  by_cases least : m = -2 ^ 63
  · subst least
    cases checks <;> rfl
  · rw [i64Result, if_pos ⟨by omega, by omega⟩, if_neg fun both => least both.2]
    rfl

theorem u32Result_cut (n : Nat) :
    u32Result checks n =
      if checks = true ∧ 2 ^ 32 ≤ n then .error .overflow else .ok (n % 2 ^ 32) := by
  unfold u32Result
  by_cases small : n < 2 ^ 32
  · rw [if_pos small, if_neg fun both => absurd both.2 (Nat.not_le_of_lt small), Nat.mod_eq_of_lt small]
  · cases checks with
    | true => rw [if_neg small, if_pos rfl, if_pos ⟨rfl, Nat.le_of_not_lt small⟩]
    | false => rw [if_neg small, if_neg (by simp), if_neg (by simp)]

theorem durationOf_days (count : Int) :
    durationOf 86400 count =
      if -106751991167 ≤ count ∧ count ≤ 106751991167 then .ok count else .error .duration := by
  unfold durationOf
  split <;> split <;> first | rfl | omega | (congr 1; omega)

theorem durationOf_weeks (count : Int) :
    durationOf 604800 count =
      if -15250284452 ≤ count ∧ count ≤ 15250284452 then .ok (7 * count) else .error .duration := by
  unfold durationOf
  split <;> split <;> first | rfl | omega | (congr 1; omega)

theorem applyUnit_days (m : Int) :
    applyUnit checks 'd' m anchor =
      if -106751991167 ≤ m ∧ m ≤ 106751991167 then .ok (anchor.shiftDays m) else .error .duration := by
  change (durationOf 86400 m >>= fun days => .ok (anchor.shiftDays days)) = _
  rw [durationOf_days]
  split <;> rfl

theorem applyUnit_weeks (m : Int) :
    applyUnit checks 'w' m anchor =
      if -15250284452 ≤ m ∧ m ≤ 15250284452 then .ok (anchor.shiftDays (7 * m))
      else .error .duration := by
  change (durationOf 604800 m >>= fun days => .ok (anchor.shiftDays days)) = _
  rw [durationOf_weeks]
  split <;> rfl

theorem applyUnit_months {m : Int} (low : -2 ^ 63 ≤ m) :
    applyUnit checks 'M' m anchor =
      if checks = true ∧ m = -2 ^ 63 then .error .overflow
      else .ok (anchor.shiftMonths (cutMonths m 1)) := by
  change (if m ≥ 0 then .ok (anchor.shiftMonths (asU32 m))
    else i64Result checks (-m) >>= fun back => .ok (anchor.shiftMonths (-(asU32 back : Int)))) = _
  by_cases forward : m ≥ 0
  · rw [if_pos forward, if_neg (by omega), asU32_cast, cutMonths, if_pos forward, Int.one_mul]
  · rw [if_neg forward, i64Result_back low (by omega) fun back => .ok (anchor.shiftMonths (-(back : Int))),
      asU32_cast, cutMonths, if_neg forward, Int.one_mul]

theorem applyUnit_years {m : Int} (low : -2 ^ 63 ≤ m) :
    applyUnit checks 'y' m anchor =
      if checks = true ∧ (m = -2 ^ 63 ∨ 2 ^ 32 ≤ 12 * (|m| % 2 ^ 32)) then .error .overflow
      else .ok (anchor.shiftMonths (cutMonths m 12)) := by
  change (if m ≥ 0 then u32Result checks (12 * asU32 m) >>= fun months => .ok (anchor.shiftMonths months)
    else i64Result checks (-m) >>= fun back => u32Result checks (12 * asU32 back) >>= fun months =>
      .ok (anchor.shiftMonths (-(months : Int)))) = _
  by_cases forward : m ≥ 0
  · have cut := asU32_cast m
    have months : ((12 * asU32 m % 2 ^ 32 : Nat) : Int) = cutMonths m 12 := by
      rw [cutMonths, if_pos forward]
      omega
    have wide : checks = true ∧ 2 ^ 32 ≤ 12 * asU32 m ↔
        checks = true ∧ (m = -2 ^ 63 ∨ 2 ^ 32 ≤ 12 * (|m| % 2 ^ 32)) := by
      rw [abs_of_nonneg forward]
      exact and_congr_right fun _ => by omega
    rw [if_pos forward, u32Result_cut, ← months, ← if_congr wide rfl rfl]
    split <;> rfl
  · have cut := asU32_cast (-m)
    have months : -((12 * asU32 (-m) % 2 ^ 32 : Nat) : Int) = cutMonths m 12 := by
      rw [cutMonths, if_neg forward]
      omega
    have wide : checks = true ∧ 2 ^ 32 ≤ 12 * asU32 (-m) ↔
        checks = true ∧ 2 ^ 32 ≤ 12 * (|m| % 2 ^ 32) := by
      rw [abs_of_neg (by omega)]
      exact and_congr_right fun _ => by omega
    rw [if_neg forward, i64Result_back low (by omega) fun back =>
      u32Result checks (12 * back) >>= fun months => .ok (anchor.shiftMonths (-(months : Int))),
      u32Result_cut, ← months, if_congr wide rfl rfl]
    by_cases least : checks = true ∧ m = -2 ^ 63
    · rw [if_pos least, if_pos ⟨least.1, .inl least.2⟩]
    · by_cases tooMany : checks = true ∧ 2 ^ 32 ≤ 12 * (|m| % 2 ^ 32)
      · rw [if_neg least, if_pos tooMany, if_pos ⟨tooMany.1, .inr tooMany.2⟩]
        rfl
      · rw [if_neg least, if_neg tooMany, if_neg fun both => both.2.elim
          (fun same => least ⟨both.1, same⟩) fun much => tooMany ⟨both.1, much⟩]
        rfl

theorem ok_ite_iff {α : Type} {condition : Prop} [Decidable condition] {panic : Panic} {value result : α} :
    (if condition then .ok value else .error panic : Except Panic α) = .ok result ↔
      condition ∧ result = value := by
  split
  · exact ⟨fun same => ⟨‹_›, (Except.ok.inj same).symm⟩, fun both => both.2 ▸ rfl⟩
  · exact ⟨fun same => by contradiction, fun both => absurd both.1 ‹_›⟩

def NaiveDate.cutShift (anchor : NaiveDate) (unit : Char) (amount : Int) : Option NaiveDate :=
  if unit = 'd' then anchor.shiftDays amount
  else if unit = 'w' then anchor.shiftDays (7 * amount)
  else if unit = 'M' then anchor.shiftMonths (cutMonths amount 1)
  else if unit = 'y' then anchor.shiftMonths (cutMonths amount 12)
  else none

theorem fitsUnit_days {m : Int} (high : m < 2 ^ 63) :
    FitsUnit checks 'd' m ↔ -106751991167 ≤ m ∧ m ≤ 106751991167 :=
  ⟨fun fits => fits.2.1 rfl, fun inside =>
    ⟨fun _ => high, fun _ => inside, nofun, fun _ => nofun, fun _ => nofun⟩⟩

theorem fitsUnit_weeks {m : Int} (high : m < 2 ^ 63) :
    FitsUnit checks 'w' m ↔ -15250284452 ≤ m ∧ m ≤ 15250284452 :=
  ⟨fun fits => fits.2.2.1 rfl, fun inside =>
    ⟨fun _ => high, nofun, fun _ => inside, fun _ => nofun, fun _ => nofun⟩⟩

theorem fitsUnit_months {m : Int} (low : -2 ^ 63 ≤ m) (high : m < 2 ^ 63) :
    FitsUnit checks 'M' m ↔ ¬ (checks = true ∧ m = -2 ^ 63) := by
  constructor
  · rintro ⟨-, -, -, above, -⟩ ⟨checked, least⟩
    have := above checked rfl
    omega
  · intro fine
    refine ⟨fun _ => high, nofun, nofun, fun checked _ => ?_, fun _ => nofun⟩
    exact lt_of_le_of_ne low fun same => fine ⟨checked, same.symm⟩

theorem fitsUnit_years {m : Int} (low : -2 ^ 63 ≤ m) (high : m < 2 ^ 63) :
    FitsUnit checks 'y' m ↔
      ¬ (checks = true ∧ (m = -2 ^ 63 ∨ 2 ^ 32 ≤ 12 * (|m| % 2 ^ 32))) := by
  constructor
  · rintro ⟨-, -, -, -, fits⟩ ⟨checked, wrong⟩
    have := fits checked rfl
    omega
  · intro fine
    refine ⟨fun _ => high, nofun, nofun, fun _ => nofun, fun checked _ => ⟨?_, ?_⟩⟩
    · exact lt_of_le_of_ne low fun same => fine ⟨checked, .inl same.symm⟩
    · exact lt_of_not_ge fun much => fine ⟨checked, .inr much⟩

theorem applyUnit_ok {unit : Char} {m : Int} (low : -2 ^ 63 ≤ m) (high : m < 2 ^ 63)
    {result : Option NaiveDate} :
    applyUnit checks unit m anchor = .ok result ↔
      FitsUnit checks unit m ∧ result = anchor.cutShift unit m := by
  by_cases day : unit = 'd'
  · subst day
    rw [applyUnit_days, ok_ite_iff, fitsUnit_days high]
    rfl
  · by_cases week : unit = 'w'
    · subst week
      rw [applyUnit_weeks, ok_ite_iff, fitsUnit_weeks high]
      rfl
    · by_cases month : unit = 'M'
      · subst month
        rw [applyUnit_months low, ← ite_not, ok_ite_iff, fitsUnit_months low high]
        rfl
      · by_cases year : unit = 'y'
        · subst year
          rw [applyUnit_years low, ← ite_not, ok_ite_iff, fitsUnit_years low high]
          rfl
        · rw [applyUnit, if_neg day, if_neg week, if_neg month, if_neg year, NaiveDate.cutShift,
            if_neg day, if_neg week, if_neg month, if_neg year]
          have fits : FitsUnit checks unit m :=
            ⟨fun _ => high, (absurd · day), (absurd · week), fun _ same => absurd same month,
              fun _ same => absurd same year⟩
          exact ⟨fun same => ⟨fits, (Except.ok.inj same).symm⟩, fun both => both.2 ▸ rfl⟩

theorem signed_ok {unit : Char} {amount : Int} (low : -2 ^ 63 ≤ amount) (high : amount ≤ 2 ^ 63)
    {result : Option NaiveDate} :
    (i64Result checks amount >>= fun magnitude => applyUnit checks unit magnitude anchor) = .ok result ↔
      FitsUnit checks unit amount ∧ result = anchor.cutShift unit amount := by
  by_cases inside : amount < 2 ^ 63
  · rw [i64Result, if_pos ⟨low, inside⟩]
    exact applyUnit_ok low inside
  · obtain rfl : amount = 2 ^ 63 := by omega
    cases checks with
    | true => exact ⟨nofun, fun both => absurd (both.1.1 rfl) (by decide)⟩
    | false =>
      change applyUnit false unit (-2 ^ 63) anchor = .ok result ↔ _
      rw [applyUnit_ok (by decide) (by decide)]
      have fits : FitsUnit false unit (-2 ^ 63) ↔ FitsUnit false unit (2 ^ 63) := by
        unfold FitsUnit
        refine and_congr ⟨nofun, nofun⟩ (and_congr ?_ (and_congr ?_
          (and_congr ⟨nofun, nofun⟩ ⟨nofun, nofun⟩)))
        · exact ⟨fun no same => absurd (no same).1 (by decide), fun no same => absurd (no same).2 (by decide)⟩
        · exact ⟨fun no same => absurd (no same).1 (by decide), fun no same => absurd (no same).2 (by decide)⟩
      rw [fits]
      refine and_congr_right fun inside => ?_
      have day : unit ≠ 'd' := fun same => absurd (inside.2.1 same).2 (by decide)
      have week : unit ≠ 'w' := fun same => absurd (inside.2.2.1 same).2 (by decide)
      have cut : ∀ factor, factor = 1 ∨ factor = 12 → cutMonths (-2 ^ 63) factor = cutMonths (2 ^ 63) factor := by
        rintro factor (rfl | rfl) <;> decide
      rw [NaiveDate.cutShift, NaiveDate.cutShift, if_neg day, if_neg week, if_neg day, if_neg week,
        cut 1 (.inl rfl), cut 12 (.inr rfl)]

theorem cutMonths_small {amount factor : Int} (small : factor * |amount| < 2 ^ 32) (positive : 0 ≤ factor) :
    cutMonths amount factor = factor * amount := by
  unfold cutMonths
  split
  · rw [abs_of_nonneg ‹_›] at small
    exact Int.emod_eq_of_lt (Int.mul_nonneg positive ‹_›) small
  · rw [abs_of_neg (by omega)] at small
    rw [Int.emod_eq_of_lt (Int.mul_nonneg positive (by omega)) small, Int.mul_neg, Int.neg_neg]

theorem shiftMonths_cut {amount factor : Int} (positive : 0 ≤ factor) :
    anchor.shiftMonths (cutMonths amount factor) = anchor.shiftMonths (factor * amount) ↔
      factor * |amount| < 2 ^ 32 ∨ anchor.shiftMonths (cutMonths amount factor) = none := by
  by_cases small : factor * |amount| < 2 ^ 32
  · rw [cutMonths_small small positive]
    exact iff_of_true rfl (.inl small)
  · have far : factor * amount ≤ -2 ^ 31 ∨ 2 ^ 31 ≤ factor * amount := by
      rcases abs_choice amount with same | same
      · rw [same] at small
        omega
      · rw [same, Int.mul_neg] at small
        omega
    rw [NaiveDate.shiftMonths_far far, or_iff_right small]

theorem cutShift_iff {unit : Char} {amount : Int}
    (known : unit = 'y' ∨ unit = 'M' ∨ unit = 'w' ∨ unit = 'd') :
    anchor.cutShift unit amount = anchor.shift unit amount ↔ UncutUnit anchor unit amount := by
  rcases known with rfl | rfl | rfl | rfl
  · exact (shiftMonths_cut (by decide)).trans ⟨fun fine => ⟨nofun, fun _ => fine⟩, fun fine => fine.2 rfl⟩
  · have one := @shiftMonths_cut anchor amount 1 (by decide)
    rw [Int.one_mul, Int.one_mul] at one
    exact one.trans ⟨fun fine => ⟨fun _ => fine, nofun⟩, fun fine => fine.1 rfl⟩
  · exact iff_of_true rfl ⟨nofun, nofun⟩
  · exact iff_of_true rfl ⟨nofun, nofun⟩

theorem shift_far {unit : Char} {amount : Int} (far : amount ≤ -2 ^ 63 ∨ 2 ^ 63 ≤ amount) :
    anchor.shift unit amount = none := by
  unfold NaiveDate.shift
  split
  · exact NaiveDate.shiftDays_far (by omega)
  · split
    · exact NaiveDate.shiftDays_far (by omega)
    · split
      · exact NaiveDate.shiftMonths_far (by omega)
      · exact NaiveDate.shiftMonths_far (by omega)

theorem dropWhile_none {α : Type} {p : α → Bool} {text : List α} (no : ∀ c ∈ text, p c = false) :
    text.dropWhile p = text := by
  cases text with
  | nil => rfl
  | cons c rest => exact List.dropWhile_cons_of_neg (by simp [no c List.mem_cons_self])

theorem digit_whole {c : Char} (digit : c.isDigit = true) : c ≠ '/' ∧ isWhitespace c = false := by
  have inside := Char.isDigit_iff_toNat.mp digit
  have low : 48 ≤ c.toNat := inside.1
  have high : c.toNat ≤ 57 := inside.2
  constructor
  · rintro rfl
    exact absurd low (by decide)
  · simp only [isWhitespace, Bool.or_eq_false_iff, Bool.and_eq_false_iff, beq_eq_false_iff_ne,
      decide_eq_false_iff_not]
    omega

theorem opsOf_expr {sign unit : Char} {number suffix : List Char} {n : Int}
    (signed : sign = '+' ∨ sign = '-') (read : Integer number n)
    (known : unit = 'y' ∨ unit = 'M' ∨ unit = 'w' ∨ unit = 'd')
    (day : suffix = [] ∨ suffix = ['/', 'd']) :
    opsOf ('n' :: 'o' :: 'w' :: sign :: (number ++ unit :: suffix)) =
      some (sign :: (number ++ [unit])) := by
  have whole : ∀ c ∈ sign :: (number ++ [unit]), c ≠ '/' ∧ isWhitespace c = false := by
    intro c member
    rcases List.mem_cons.mp member with rfl | member
    · rcases signed with rfl | rfl <;> decide
    · rcases List.mem_append.mp member with member | member
      · rcases integer_chars read c member with digit | rfl | rfl
        · exact digit_whole digit
        · decide
        · decide
      · obtain rfl := List.mem_singleton.mp member
        rcases known with rfl | rfl | rfl | rfl <;> decide
  have before : (sign :: (number ++ unit :: suffix)).takeWhile (· ≠ '/') = sign :: (number ++ [unit]) := by
    have cut : sign :: (number ++ unit :: suffix) = (sign :: (number ++ [unit])) ++ suffix := by
      rw [List.cons_append, List.append_assoc, List.singleton_append]
    rw [cut, List.takeWhile_append_of_pos fun c member => decide_eq_true (whole c member).1]
    rcases day with rfl | rfl
    · exact List.append_nil _
    · exact List.append_nil _
  rw [opsOf, before, trimmed, dropWhile_none fun c member => (whole c member).2,
    dropWhile_none fun c member => (whole c (List.mem_reverse.mp member)).2, List.reverse_reverse]

theorem evaluateOps_signed {sign unit : Char} {number : List Char} (signed : sign = '+' ∨ sign = '-') :
    evaluateOps checks (sign :: (number ++ [unit])) anchor =
      if unit.utf8Size ≠ 1 then .error .charBoundary
      else match parseI64 number with
        | none => .ok none
        | some n => i64Result checks (if sign = '+' then n else -n) >>= fun magnitude =>
            applyUnit checks unit magnitude anchor := by
  have single : sign.utf8Size = 1 := by
    rcases signed with rfl | rfl <;> rfl
  have factor (n : Int) : (if sign = '+' then 1 else -1) * n = if sign = '+' then n else -n := by
    split
    · exact Int.one_mul n
    · exact Int.neg_one_mul n
  rw [evaluateOps, if_neg (not_not_intro single), if_neg (by rcases signed with rfl | rfl <;> simp),
    List.getLast?_concat, List.dropLast_concat]
  simp only [factor]
  rfl

theorem mathExpr_cases {text : List Char} {amount : Int} {unit : Char} (expr : MathExpr text amount unit) :
    ∃ sign number n, (sign = '+' ∨ sign = '-') ∧ Integer number n ∧
      (unit = 'y' ∨ unit = 'M' ∨ unit = 'w' ∨ unit = 'd') ∧
      opsOf text = some (sign :: (number ++ [unit])) ∧ amount = if sign = '+' then n else -n := by
  cases expr with
  | @mk sign number suffix n unit signed read known day =>
    exact ⟨sign, number, n, signed, read, known, opsOf_expr signed read known day, rfl⟩

theorem mathExpr_ops {text : List Char} {amount : Int} {sign unit other : Char} {number : List Char}
    (expr : MathExpr text amount other) (ops : opsOf text = some (sign :: (number ++ [unit]))) :
    other = unit ∧ (unit = 'y' ∨ unit = 'M' ∨ unit = 'w' ∨ unit = 'd') ∧
      ∃ n, Integer number n ∧ amount = if sign = '+' then n else -n := by
  obtain ⟨sign', number', n, -, read, known, ops', rfl⟩ := mathExpr_cases expr
  rw [ops] at ops'
  obtain ⟨rfl, tail⟩ := List.cons_eq_cons.mp (Option.some.inj ops')
  obtain ⟨rfl, last⟩ := List.append_inj' tail rfl
  obtain rfl := List.singleton_inj.mp last
  exact ⟨rfl, known, n, read, rfl⟩

theorem evaluateOps_iff {expr : String} {sign unit : Char} {number : List Char}
    (ops : opsOf expr.toList = some (sign :: (number ++ [unit]))) (signed : sign = '+' ∨ sign = '-') :
    (∃ result, evaluateOps checks (sign :: (number ++ [unit])) anchor = .ok result ∧
      ∀ amount unit, MathExpr expr.toList amount unit → result = anchor.shift unit amount) ↔
    unit.utf8Size = 1 ∧ ∀ n, parseI64 number = some n →
      FitsUnit checks unit (if sign = '+' then n else -n) ∧
        ((∃ amount, MathExpr expr.toList amount unit) →
          UncutUnit anchor unit (if sign = '+' then n else -n)) := by
  rw [evaluateOps_signed signed]
  by_cases single : unit.utf8Size = 1
  · rw [if_neg (not_not_intro single)]
    cases parsed : parseI64 number with
    | none =>
      refine iff_of_true ⟨none, rfl, ?_⟩ ⟨single, nofun⟩
      intro amount other meant
      obtain ⟨rfl, -, n, read, rfl⟩ := mathExpr_ops meant ops
      have outside : ¬ (-2 ^ 63 ≤ n ∧ n < 2 ^ 63) := by
        intro inside
        rw [parseI64_integer read, if_pos inside] at parsed
        cases parsed
      refine (shift_far ?_).symm
      split <;> omega
    | some n =>
      have range : -2 ^ 63 ≤ n ∧ n < 2 ^ 63 := parseI64_range parsed
      have low : -2 ^ 63 ≤ if sign = '+' then n else -n := by split <;> omega
      have high : (if sign = '+' then n else -n) ≤ 2 ^ 63 := by split <;> omega
      have meant {amount : Int} {other : Char} (expression : MathExpr expr.toList amount other) :
          other = unit ∧ amount = (if sign = '+' then n else -n) ∧
            (unit = 'y' ∨ unit = 'M' ∨ unit = 'w' ∨ unit = 'd') := by
        obtain ⟨same, known, n', read, rfl⟩ := mathExpr_ops expression ops
        rw [parseI64_integer read] at parsed
        obtain rfl := Option.some.inj (Option.ite_none_right_eq_some.mp parsed).2
        exact ⟨same, rfl, known⟩
      constructor
      · rintro ⟨result, returned, exact'⟩
        obtain ⟨fits, rfl⟩ := (signed_ok low high).mp returned
        refine ⟨single, ?_⟩
        rintro _ ⟨⟩
        refine ⟨fits, ?_⟩
        rintro ⟨amount, expression⟩
        obtain ⟨-, same, known⟩ := meant expression
        have shifted := exact' amount unit expression
        rw [same] at shifted
        exact (cutShift_iff known).mp shifted
      · rintro ⟨-, fine⟩
        obtain ⟨fits, uncut⟩ := fine n rfl
        refine ⟨_, (signed_ok low high).mpr ⟨fits, rfl⟩, ?_⟩
        intro amount other expression
        obtain ⟨rfl, rfl, known⟩ := meant expression
        exact (cutShift_iff known).mpr (uncut ⟨_, expression⟩)
  · rw [if_pos single]
    exact iff_of_false (fun ⟨_, returned, _⟩ => by cases returned) fun both => single both.1

/- The evaluation returns the date that the expression means just when nothing in it is cut. -/
theorem mathExact_iff (checks : Bool) (expr : String) (anchor : NaiveDate) :
    MathExact checks expr anchor ↔ MathFine checks expr anchor := by
  unfold MathExact MathFine parseDateMath
  cases found : opsOf expr.toList with
  | none =>
    refine iff_of_true ⟨none, rfl, ?_⟩ nofun
    intro amount unit expression
    obtain ⟨_, _, _, _, _, _, ops, _⟩ := mathExpr_cases expression
    rw [found] at ops
    cases ops
  | some ops =>
    -- what the operations start with when the text is an expression
    have meant {amount : Int} {unit : Char} (expression : MathExpr expr.toList amount unit) :
        ∃ sign number, (sign = '+' ∨ sign = '-') ∧ ops = sign :: (number ++ [unit]) := by
      obtain ⟨sign, number, _, signed, _, _, same, _⟩ := mathExpr_cases expression
      rw [found] at same
      exact ⟨sign, number, signed, Option.some.inj same⟩
    cases ops with
    | nil =>
      refine iff_of_true ⟨_, rfl, ?_⟩ ?_
      · intro amount unit expression
        obtain ⟨_, _, _, same⟩ := meant expression
        cases same
      · rintro _ ⟨⟩
        exact ⟨nofun, nofun⟩
    | cons sign body =>
      by_cases single : sign.utf8Size = 1
      · by_cases signed : sign = '+' ∨ sign = '-'
        · rcases List.eq_nil_or_concat' body with rfl | ⟨number, unit, rfl⟩
          · refine iff_of_true ⟨none, ?_, ?_⟩ ?_
            · rcases signed with rfl | rfl <;> rfl
            · intro amount unit expression
              obtain ⟨_, number, _, same⟩ := meant expression
              simp at same
            · rintro _ ⟨⟩
              refine ⟨by simpa using single, ?_⟩
              intro _ number unit same
              simp at same
          · refine (evaluateOps_iff found signed).trans ?_
            constructor
            · rintro fine _ ⟨⟩
              refine ⟨by simpa using single, ?_⟩
              intro sign' number' unit' same _
              obtain ⟨rfl, tail⟩ := List.cons_eq_cons.mp same
              obtain ⟨rfl, last⟩ := List.append_inj' tail rfl
              obtain rfl := List.singleton_inj.mp last
              exact fine
            · intro fine
              exact (fine _ rfl).2 sign number unit rfl signed
        · refine iff_of_true ⟨none, ?_, ?_⟩ ?_
          · change evaluateOps checks (sign :: body) anchor = _
            rw [evaluateOps, if_neg (not_not_intro single), if_pos (not_or.mp signed)]
            rfl
          · intro amount unit expression
            obtain ⟨_, _, sign', same⟩ := meant expression
            obtain ⟨rfl, -⟩ := List.cons_eq_cons.mp same
            exact absurd sign' signed
          · rintro _ ⟨⟩
            refine ⟨by simpa using single, ?_⟩
            intro sign' number unit same signed'
            obtain ⟨rfl, -⟩ := List.cons_eq_cons.mp same
            exact absurd signed' signed
      · refine iff_of_false ?_ fun fine => single ((fine _ rfl).1 sign rfl)
        rintro ⟨result, returned, -⟩
        change evaluateOps checks (sign :: body) anchor = _ at returned
        rw [evaluateOps, if_pos single] at returned
        cases returned

def newYear : NaiveDate where
  date := ⟨2026, 1, 1⟩
  valid := ⟨by decide, by decide, by decide, by decide⟩
  low := by decide
  high := by decide

/- A cut inside a character, a duration out of bounds, a product that does not fit, and a number of months
that comes out as zero. -/
theorem not_mathExact :
    parseDateMath false "now+1é" newYear = .error .charBoundary ∧
      parseDateMath false "now+999999999999d" newYear = .error .duration ∧
      parseDateMath true "now--9223372036854775808d" newYear = .error .overflow ∧
      ¬ MathExact false "now+1é" newYear ∧
      ¬ MathExact false "now+4294967296M" newYear ∧ ¬ MathExact true "now+4294967296M" newYear := by
  have split : parseDateMath false "now+1é" newYear = .error .charBoundary := rfl
  have returned (checks : Bool) : parseDateMath checks "now+4294967296M" newYear = .ok (some newYear) := by
    cases checks <;> rfl
  have expression : MathExpr "now+4294967296M".toList 4294967296 'M' := by
    have read : Integer "4294967296".toList 4294967296 :=
      ⟨"4294967296".toList, by decide, List.all_eq_true.mp (by decide), .inl ⟨.inl rfl, by decide⟩⟩
    exact @MathExpr.mk '+' _ [] _ 'M' (.inl rfl) read (.inr (.inl rfl)) (.inl rfl)
  have wrong (checks : Bool) : ¬ MathExact checks "now+4294967296M" newYear := by
    rintro ⟨result, same, exact'⟩
    rw [returned checks] at same
    have shifted := exact' _ _ expression
    rw [← Except.ok.inj same] at shifted
    have off : newYear.shiftMonths 4294967296 = none := NaiveDate.shiftMonths_far (.inr (by decide))
    change some newYear = newYear.shiftMonths 4294967296 at shifted
    rw [off] at shifted
    cases shifted
  refine ⟨split, rfl, rfl, ?_, wrong false, wrong true⟩
  rintro ⟨result, same, -⟩
  rw [split] at same
  cases same

end Expressions

end Surch.Api
