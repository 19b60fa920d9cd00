import Mathlib.Data.List.Dedup
import Mathlib.Tactic.Ring
import Surch.Lib.Reader
import Surch.Slm.Cron

/-! The language of cron expressions: what an entry of a field spells, the numbers that it stands for, and
where `parse` keeps to both. Saturdays of six fields, steps that overflow, ranges with steps and question
marks in lists are where it does not. -/
namespace Surch.Slm
open Surch.Lib Surch.Postings

section Pieces

theorem splitOnce_append {separator : Char} {front back : List Char} (plain : separator ∉ front) :
    splitOnce separator (front ++ separator :: back) = some (front, back) := by
  have other : ∀ c ∈ front, (decide (c ≠ separator)) = true := by
    intro c member
    rw [decide_eq_true_eq]
    rintro rfl
    exact plain member
  have rest : (front ++ separator :: back).dropWhile (fun c => decide (c ≠ separator)) = separator :: back := by
    rw [List.dropWhile_append_of_pos other, List.dropWhile_cons_of_neg (by simp)]
  have taken : (front ++ separator :: back).takeWhile (fun c => decide (c ≠ separator)) = front := by
    rw [List.takeWhile_append_of_pos other, List.takeWhile_cons_of_neg (by simp), List.append_nil]
  rw [splitOnce, rest, taken]

theorem splitOnce_none {separator : Char} {text : List Char} :
    splitOnce separator text = none ↔ separator ∉ text := by
  constructor
  · intro none member
    obtain ⟨front, back, rfl, plain⟩ := List.eq_append_cons_of_mem member
    rw [splitOnce_append plain] at none
    cases none
  · intro plain
    have other : ∀ c ∈ text, (decide (c ≠ separator)) = true := by
      intro c member
      rw [decide_eq_true_eq]
      rintro rfl
      exact plain member
    have all := @List.dropWhile_append_of_pos _ (fun c => decide (c ≠ separator)) text [] other
    rw [List.append_nil, List.dropWhile_nil] at all
    rw [splitOnce, all]

theorem splitOnce_some {separator : Char} {text front back : List Char}
    (split : splitOnce separator text = some (front, back)) :
    text = front ++ separator :: back ∧ separator ∉ front := by
  have member : separator ∈ text := by
    by_contra plain
    rw [splitOnce_none.mpr plain] at split
    cases split
  obtain ⟨front', back', rfl, plain⟩ := List.eq_append_cons_of_mem member
  rw [splitOnce_append plain] at split
  cases split
  exact ⟨rfl, plain⟩

theorem mem_splitOn {separator : Char → Bool} {text piece : List Char}
    (member : piece ∈ splitOn separator text) :
    ∀ c ∈ piece, c ∈ text ∧ separator c = false := by
  induction text generalizing piece with
  | nil =>
    obtain rfl : piece = [] := by simpa [splitOn] using member
    simp
  | cons x text ih =>
    rw [splitOn] at member
    split at member
    · rcases List.mem_cons.mp member with rfl | later
      · simp
      · intro c here
        obtain ⟨inside, plain⟩ := ih later c here
        exact ⟨List.mem_cons_of_mem _ inside, plain⟩
    · rename_i head
      cases pieces : splitOn separator text with
      | nil =>
        rw [pieces] at member
        obtain rfl : piece = [x] := by simpa using member
        simpa using head
      | cons first rest =>
        rw [pieces] at member
        rcases List.mem_cons.mp member with rfl | later
        · intro c here
          rcases List.mem_cons.mp here with rfl | here
          · exact ⟨List.mem_cons_self, by simpa using head⟩
          · obtain ⟨inside, plain⟩ := ih (by rw [pieces]; exact List.mem_cons_self) c here
            exact ⟨List.mem_cons_of_mem _ inside, plain⟩
        · intro c here
          obtain ⟨inside, plain⟩ := ih (by rw [pieces]; exact List.mem_cons_of_mem _ later) c here
          exact ⟨List.mem_cons_of_mem _ inside, plain⟩

theorem trim_of_plain {text : List Char} (plain : ∀ c ∈ text, isWhitespace c = false) :
    trim text = text := by
  have same : ∀ text : List Char, (∀ c ∈ text, isWhitespace c = false) →
      text.dropWhile isWhitespace = text := by
    intro text plain
    cases text with
    | nil => rfl
    | cons c text => rw [List.dropWhile_cons_of_neg (by simp [plain c List.mem_cons_self])]
  rw [trim, same text plain, same _ fun c member => plain c (List.mem_reverse.mp member),
    List.reverse_reverse]

theorem plain_of_mem_splitWhitespace {text field : List Char} (member : field ∈ splitWhitespace text) :
    ∀ c ∈ field, isWhitespace c = false :=
  fun c here => (mem_splitOn (List.mem_of_mem_filter member) c here).2

end Pieces

section Entries

inductive CronEntry where
  | all
  | question
  | number (n : Nat)
  | range (a b : Nat)
  | stepAll (k : Nat)
  | stepFrom (n k : Nat)
  | stepRange (a b k : Nat)
deriving DecidableEq

def Numeral (text : List Char) (n : Nat) : Prop := parseUnsigned (2 ^ 32) text = some n

/- The entries as the module's documentation writes them, and a range with a step. -/
inductive Spells : List Char → CronEntry → Prop
  | all : Spells ['*'] .all
  | question : Spells ['?'] .question
  | number {text : List Char} {n : Nat} (read : Numeral text n) : Spells text (.number n)
  | range {first last : List Char} {a b : Nat} (start : Numeral first a) (stop : Numeral last b) :
    Spells (first ++ '-' :: last) (.range a b)
  | stepAll {step : List Char} {k : Nat} (read : Numeral step k) : Spells ('*' :: '/' :: step) (.stepAll k)
  | stepFrom {first step : List Char} {n k : Nat} (start : Numeral first n) (read : Numeral step k) :
    Spells (first ++ '/' :: step) (.stepFrom n k)
  | stepRange {first last step : List Char} {a b k : Nat} (start : Numeral first a)
    (stop : Numeral last b) (read : Numeral step k) :
    Spells (first ++ '-' :: last ++ '/' :: step) (.stepRange a b k)

namespace CronEntry

/- Numbers inside the bounds of the field, ranges that ascend and steps that move. -/
def InRange (lo hi : Nat) : CronEntry → Prop
  | all | question => True
  | number n => lo ≤ n ∧ n ≤ hi
  | range a b => lo ≤ a ∧ a ≤ b ∧ b ≤ hi
  | stepAll k => 0 < k
  | stepFrom n k => (lo ≤ n ∧ n ≤ hi) ∧ 0 < k
  | stepRange a b k => (lo ≤ a ∧ a ≤ b ∧ b ≤ hi) ∧ 0 < k

def start (lo : Nat) : CronEntry → Nat
  | all | question | stepAll _ => lo
  | number n | stepFrom n _ => n
  | range a _ | stepRange a _ _ => a

def last (hi : Nat) : CronEntry → Nat
  | all | question | stepAll _ | stepFrom _ _ => hi
  | number n => n
  | range _ b | stepRange _ b _ => b

def step : CronEntry → Nat
  | all | question | number _ | range _ _ => 1
  | stepAll k | stepFrom _ k | stepRange _ _ k => k

/- The numbers from the start up to the bound, in steps. -/
def Denotes (lo hi : Nat) (entry : CronEntry) (v : Nat) : Prop :=
  ∃ i, v = entry.start lo + i * entry.step ∧ v ≤ entry.last hi

end CronEntry

theorem Numeral.chars {text : List Char} {n : Nat} (read : Numeral text n) :
    ∀ c ∈ text, c = '+' ∨ c.isDigit = true := by
  have digits : ∀ c ∈ withoutPlus text, c.isDigit = true := by
    unfold Numeral parseUnsigned at read
    dsimp only at read
    split at read
    · cases read
    · rename_i fine
      rw [not_or, not_not, List.all_eq_true] at fine
      exact fine.2
  intro c member
  unfold withoutPlus at digits
  split at digits
  · rcases List.mem_cons.mp member with rfl | later
    · exact .inl rfl
    · exact .inr (digits c later)
  · exact .inr (digits c member)

theorem Numeral.plain {text : List Char} {n : Nat} (read : Numeral text n) (c : Char) (sign : c ≠ '+')
    (other : c.isDigit = false) : c ∉ text := by
  intro member
  rcases read.chars c member with same | digit
  · exact sign same
  · rw [digit] at other
    cases other

def readEntry (text : List Char) : Option CronEntry :=
  match splitOnce '/' text with
  | none =>
    if text = ['*'] then some .all
    else if text = ['?'] then some .question
    else match splitOnce '-' text with
      | none => (parseUnsigned (2 ^ 32) text).map .number
      | some (first, last) => do
        let a ← parseUnsigned (2 ^ 32) first
        let b ← parseUnsigned (2 ^ 32) last
        return .range a b
  | some (base, step) => do
    let k ← parseUnsigned (2 ^ 32) step
    if base = ['*'] then return .stepAll k
    else match splitOnce '-' base with
      | none => (parseUnsigned (2 ^ 32) base).map fun n => .stepFrom n k
      | some (first, last) => do
        let a ← parseUnsigned (2 ^ 32) first
        let b ← parseUnsigned (2 ^ 32) last
        return .stepRange a b k

theorem Numeral.ne_symbol {text : List Char} {n : Nat} (read : Numeral text n) (c : Char) (sign : c ≠ '+')
    (other : c.isDigit = false) : text ≠ [c] := by
  rintro rfl
  exact read.plain c sign other List.mem_cons_self

theorem Numeral.range_plain {first last : List Char} {a b : Nat} (start : Numeral first a)
    (stop : Numeral last b) (c : Char) (sign : c ≠ '+') (other : c.isDigit = false) (dash : c ≠ '-') :
    c ∉ first ++ '-' :: last := by
  rw [List.mem_append, List.mem_cons]
  rintro (member | rfl | member)
  · exact start.plain c sign other member
  · exact dash rfl
  · exact stop.plain c sign other member

theorem readEntry_of_spells {text : List Char} {entry : CronEntry} (spells : Spells text entry) :
    readEntry text = some entry := by
  have range_ne : ∀ {first last : List Char} (c : Char), first ≠ [] → first ++ '-' :: last ≠ [c] := by
    intro first last c some_chars same
    have length := congrArg List.length same
    have positive := List.length_pos_of_ne_nil some_chars
    simp at length
    omega
  have some_chars : ∀ {text : List Char} {n : Nat}, Numeral text n → text ≠ [] := by
    rintro text n read rfl
    cases read
  cases spells with
  | all => rfl
  | question => rfl
  | @number _ n read =>
    have slash := splitOnce_none.mpr (read.plain '/' (by decide) (by decide))
    have dash := splitOnce_none.mpr (read.plain '-' (by decide) (by decide))
    rw [readEntry, slash]
    simp only [if_neg (read.ne_symbol '*' (by decide) (by decide)),
      if_neg (read.ne_symbol '?' (by decide) (by decide)), dash]
    rw [show parseUnsigned (2 ^ 32) text = some n from read, Option.map_some]
  | @range first last a b start stop =>
    have slash := splitOnce_none.mpr (start.range_plain stop '/' (by decide) (by decide) (by decide))
    have dash := @splitOnce_append '-' first last (start.plain _ (by decide) (by decide))
    rw [readEntry, slash]
    simp only [if_neg (range_ne '*' (some_chars start)), if_neg (range_ne '?' (some_chars start)), dash]
    rw [show parseUnsigned (2 ^ 32) first = some a from start,
      show parseUnsigned (2 ^ 32) last = some b from stop]
    rfl
  | @stepAll step k read =>
    have slash : splitOnce '/' ('*' :: '/' :: step) = some (['*'], step) :=
      @splitOnce_append '/' ['*'] step (by decide)
    rw [readEntry, slash]
    simp only [show parseUnsigned (2 ^ 32) step = some k from read]
    rfl
  | @stepFrom first step n k start read =>
    have slash := @splitOnce_append '/' first step (start.plain _ (by decide) (by decide))
    have dash := splitOnce_none.mpr (start.plain '-' (by decide) (by decide))
    rw [readEntry, slash]
    simp only [show parseUnsigned (2 ^ 32) step = some k from read, Option.bind_eq_bind, Option.bind_some,
      if_neg (start.ne_symbol '*' (by decide) (by decide)), dash,
      show parseUnsigned (2 ^ 32) first = some n from start, Option.map_some]
  | @stepRange first last step a b k start stop read =>
    have slash := @splitOnce_append '/' (first ++ '-' :: last) step
      (start.range_plain stop _ (by decide) (by decide) (by decide))
    have dash := @splitOnce_append '-' first last (start.plain _ (by decide) (by decide))
    rw [readEntry, slash]
    simp only [show parseUnsigned (2 ^ 32) step = some k from read, Option.bind_eq_bind, Option.bind_some,
      if_neg (range_ne '*' (some_chars start)), dash]
    rw [show parseUnsigned (2 ^ 32) first = some a from start,
      show parseUnsigned (2 ^ 32) last = some b from stop]
    rfl

theorem Spells.unique {text : List Char} {entry entry' : CronEntry} (spells : Spells text entry)
    (spells' : Spells text entry') : entry = entry' :=
  Option.some.inj ((readEntry_of_spells spells).symm.trans (readEntry_of_spells spells'))

end Entries

section Loop

/-- Without an overflow at the start there is none: a step that leads to another value is no larger
than it. -/
theorem mem_stepValues {last step : Nat} (positive : 0 < step) (small : last < 2 ^ 31) {fuel start : Nat}
    (fits : start + step < 2 ^ 32) (enough : last < start + fuel) (v : Nat) :
    v ∈ stepValues last step fuel start ↔ ∃ i, v = start + i * step ∧ v ≤ last := by
  induction fuel generalizing start with
  | zero =>
    constructor
    · intro member
      cases member
    · rintro ⟨i, rfl, below⟩
      omega
  | succ fuel ih =>
    rw [stepValues]
    by_cases inside : start ≤ last
    · rw [if_pos inside, Nat.mod_eq_of_lt fits, List.mem_cons]
      by_cases further : start + step ≤ last
      · rw [@ih (start + step) (by omega) (by omega)]
        constructor
        · rintro (rfl | ⟨i, rfl, below⟩)
          · exact ⟨0, by omega, inside⟩
          · exact ⟨i + 1, by ring, below⟩
        · rintro ⟨i, rfl, below⟩
          cases i with
          | zero => exact .inl (by omega)
          | succ i => exact .inr ⟨i, by ring, below⟩
      · have ends : stepValues last step fuel (start + step) = [] := by
          cases fuel with
          | zero => rfl
          | succ fuel => rw [stepValues, if_neg further]
        rw [ends]
        constructor
        · rintro (rfl | impossible)
          · exact ⟨0, by omega, inside⟩
          · cases impossible
        · rintro ⟨i, rfl, below⟩
          cases i with
          | zero => exact .inl (by omega)
          | succ i =>
            have one : step ≤ (i + 1) * step := Nat.le_mul_of_pos_left step (Nat.succ_pos i)
            omega
    · rw [if_neg inside]
      constructor
      · intro member
        cases member
      · rintro ⟨i, rfl, below⟩
        have from_start := Nat.le_add_right start (i * step)
        omega

end Loop

section Chunks

variable {spec chunk : List Char} {lo hi : Nat}

theorem parseNumber_ok {text : List Char} {what : String} {n : Nat} :
    parseNumber spec text what = .ok n ↔ Numeral text n := by
  unfold parseNumber Numeral
  cases parseUnsigned (2 ^ 32) text <;> simp

/-- Without a slash there is no step; behind one there is a numeral that is not zero. -/
theorem parseStep_ok {rangePart : List Char} {step : Option Nat} :
    parseStep spec chunk = .ok (rangePart, step) ↔
      ('/' ∉ chunk ∧ rangePart = chunk ∧ step = none) ∨
        ∃ text k, chunk = rangePart ++ '/' :: text ∧ '/' ∉ rangePart ∧ Numeral text k ∧ 0 < k ∧
          step = some k := by
  unfold parseStep
  cases split : splitOnce '/' chunk with
  | none =>
    rw [splitOnce_none] at split
    constructor
    · intro same
      cases same
      exact .inl ⟨split, rfl, rfl⟩
    · rintro (⟨-, rfl, rfl⟩ | ⟨text, k, rfl, -⟩)
      · rfl
      · exact absurd (List.mem_append_right _ List.mem_cons_self) split
  | some parts =>
    obtain ⟨base, text⟩ := parts
    obtain ⟨whole, plain⟩ := splitOnce_some split
    constructor
    · intro accepted
      obtain ⟨k, read, accepted⟩ := except_bind_ok.mp accepted
      rw [parseNumber_ok] at read
      by_cases zero : k = 0
      · simp only [if_pos zero] at accepted
        cases accepted
      · simp only [if_neg zero] at accepted
        cases accepted
        exact .inr ⟨text, k, whole, plain, read, Nat.pos_of_ne_zero zero, rfl⟩
    · rintro (⟨none, -⟩ | ⟨text', k, same, plain', read, positive, rfl⟩)
      · rw [whole] at none
        exact absurd (List.mem_append_right _ List.mem_cons_self) none
      · have first := @splitOnce_append '/' _ text' plain'
        rw [← same, split] at first
        cases first
        have numeral : parseNumber spec text "invalid step" = .ok k := parseNumber_ok.mpr read
        change (parseNumber spec text "invalid step" >>= fun step => _) = _
        rw [numeral]
        change (if k = 0 then _ else _) = _
        rw [if_neg (Nat.ne_of_gt positive)]
        rfl

theorem parseRange_ok {rangePart : List Char} {step : Option Nat} {start last : Nat} :
    parseRange spec rangePart step lo hi = .ok (start, last) ↔
      (rangePart = ['*'] ∧ start = lo ∧ last = hi) ∨
        (∃ first second, rangePart = first ++ '-' :: second ∧ Numeral first start ∧ Numeral second last) ∨
        (Numeral rangePart start ∧ last = if step.isSome then hi else start) := by
  unfold parseRange
  by_cases star : rangePart = ['*']
  · rw [if_pos star]
    subst star
    constructor
    · intro same
      cases same
      exact .inl ⟨rfl, rfl, rfl⟩
    · rintro (⟨-, rfl, rfl⟩ | ⟨first, second, same, -⟩ | ⟨read, -⟩)
      · rfl
      · have dash : '-' ∈ ['*'] := same ▸ List.mem_append_right _ List.mem_cons_self
        exact absurd dash (by decide)
      · exact absurd rfl (read.ne_symbol '*' (by decide) (by decide))
  · rw [if_neg star]
    cases split : splitOnce '-' rangePart with
    | none =>
      rw [splitOnce_none] at split
      constructor
      · intro accepted
        obtain ⟨n, read, same⟩ := except_bind_ok.mp accepted
        rw [parseNumber_ok] at read
        cases same
        exact .inr (.inr ⟨read, rfl⟩)
      · rintro (⟨same, -⟩ | ⟨first, second, rfl, -⟩ | ⟨read, rfl⟩)
        · exact absurd same star
        · exact absurd (List.mem_append_right _ List.mem_cons_self) split
        · exact except_bind_ok.mpr ⟨start, parseNumber_ok.mpr read, rfl⟩
    | some parts =>
      obtain ⟨a, b⟩ := parts
      obtain ⟨rfl, plain⟩ := splitOnce_some split
      constructor
      · intro accepted
        obtain ⟨m, read, accepted⟩ := except_bind_ok.mp accepted
        obtain ⟨n, read', same⟩ := except_bind_ok.mp accepted
        rw [parseNumber_ok] at read read'
        cases same
        exact .inr (.inl ⟨a, b, rfl, read, read'⟩)
      · rintro (⟨same, -⟩ | ⟨first, second, same, read, read'⟩ | ⟨read, -⟩)
        · exact absurd same star
        · have parts := @splitOnce_append '-' _ second (read.plain '-' (by decide) (by decide))
          rw [← same, split] at parts
          cases parts
          exact except_bind_ok.mpr ⟨start, parseNumber_ok.mpr read,
            except_bind_ok.mpr ⟨last, parseNumber_ok.mpr read', rfl⟩⟩
        · exact absurd (List.mem_append_right _ List.mem_cons_self)
            (read.plain '-' (by decide) (by decide))

/- What an entry's text is taken apart into before its loop. -/
def Loops (spec chunk : List Char) (lo hi start last step : Nat) : Prop :=
  ∃ rangePart given, parseStep spec chunk = .ok (rangePart, given) ∧
    parseRange spec rangePart given lo hi = .ok (start, last) ∧ step = given.getD 1

theorem loops_iff {start last step : Nat} :
    Loops spec chunk lo hi start last step ↔
      ∃ entry, Spells chunk entry ∧ entry ≠ .question ∧ 0 < entry.step ∧ start = entry.start lo ∧
        last = entry.last hi ∧ step = entry.step := by
  constructor
  · rintro ⟨rangePart, given, stepped, ranged, rfl⟩
    rw [parseStep_ok] at stepped
    rw [parseRange_ok] at ranged
    obtain ⟨-, rfl, rfl⟩ | ⟨text, k, rfl, -, read, positive, rfl⟩ := stepped
    · obtain ⟨rfl, rfl, rfl⟩ | ⟨first, second, rfl, read, read'⟩ | ⟨read, rfl⟩ := ranged
      · exact ⟨.all, .all, by simp, Nat.one_pos, rfl, rfl, rfl⟩
      · exact ⟨.range start last, .range read read', by simp, Nat.one_pos, rfl, rfl, rfl⟩
      · exact ⟨.number _, .number read, by simp, Nat.one_pos, rfl, rfl, rfl⟩
    · obtain ⟨rfl, rfl, rfl⟩ | ⟨first, second, rfl, read', read''⟩ | ⟨read', rfl⟩ := ranged
      · exact ⟨.stepAll k, .stepAll read, by simp, positive, rfl, rfl, rfl⟩
      · exact ⟨.stepRange start last k, .stepRange read' read'' read, by simp, positive, rfl, rfl, rfl⟩
      · exact ⟨.stepFrom start k, .stepFrom read' read, by simp, positive, rfl, rfl, rfl⟩
  · rintro ⟨entry, spells, known, positive, rfl, rfl, rfl⟩
    cases spells with
    | all =>
      exact ⟨['*'], none, parseStep_ok.mpr (.inl ⟨by decide, rfl, rfl⟩),
        parseRange_ok.mpr (.inl ⟨rfl, rfl, rfl⟩), rfl⟩
    | question => exact absurd rfl known
    | number read =>
      exact ⟨chunk, none, parseStep_ok.mpr (.inl ⟨read.plain '/' (by decide) (by decide), rfl, rfl⟩),
        parseRange_ok.mpr (.inr (.inr ⟨read, rfl⟩)), rfl⟩
    | range read read' =>
      exact ⟨_, none,
        parseStep_ok.mpr (.inl ⟨read.range_plain read' '/' (by decide) (by decide) (by decide), rfl, rfl⟩),
        parseRange_ok.mpr (.inr (.inl ⟨_, _, rfl, read, read'⟩)), rfl⟩
    | @stepAll text k read =>
      exact ⟨['*'], some k, parseStep_ok.mpr (.inr ⟨text, k, rfl, by decide, read, positive, rfl⟩),
        parseRange_ok.mpr (.inl ⟨rfl, rfl, rfl⟩), rfl⟩
    | @stepFrom first text n k read read' =>
      exact ⟨first, some k, parseStep_ok.mpr
        (.inr ⟨text, k, rfl, read.plain '/' (by decide) (by decide), read', positive, rfl⟩),
        parseRange_ok.mpr (.inr (.inr ⟨read, rfl⟩)), rfl⟩
    | @stepRange first second text a b k read read' read'' =>
      exact ⟨first ++ '-' :: second, some k, parseStep_ok.mpr
        (.inr ⟨text, k, rfl, read.range_plain read' '/' (by decide) (by decide) (by decide), read'',
          positive, rfl⟩), parseRange_ok.mpr (.inr (.inl ⟨_, _, rfl, read, read'⟩)), rfl⟩

theorem CronEntry.inRange_iff (order : lo ≤ hi) (entry : CronEntry) :
    entry.InRange lo hi ↔ 0 < entry.step ∧
      ¬ (entry.start lo < lo ∨ entry.last hi > hi ∨ entry.start lo > entry.last hi) := by
  cases entry <;> simp [InRange, start, last, step] <;> omega

/-- An entry is taken if it spells one that is in range; a question mark is none. -/
theorem parseChunk_ok (order : lo ≤ hi) {values : List Nat} :
    parseChunk spec chunk lo hi = .ok values ↔
      ∃ entry, Spells chunk entry ∧ entry ≠ .question ∧ entry.InRange lo hi ∧
        values = stepValues (entry.last hi) entry.step (hi + 1) (entry.start lo) := by
  have some_chars : ∀ entry, Spells chunk entry → ¬ chunk.isEmpty = true := by
    intro entry spells empty
    rw [List.isEmpty_iff] at empty
    have read := readEntry_of_spells spells
    rw [empty] at read
    cases read
  constructor
  · intro accepted
    unfold parseChunk at accepted
    by_cases empty : chunk.isEmpty = true
    · rw [if_pos empty] at accepted
      cases accepted
    · rw [if_neg empty] at accepted
      obtain ⟨⟨rangePart, given⟩, stepped, accepted⟩ := except_bind_ok.mp accepted
      obtain ⟨⟨start, last⟩, ranged, accepted⟩ := except_bind_ok.mp accepted
      dsimp only at stepped ranged accepted
      split at accepted
      · cases accepted
      · rename_i inside
        cases accepted
        obtain ⟨entry, spells, known, positive, rfl, rfl, same⟩ :=
          loops_iff.mp ⟨rangePart, given, stepped, ranged, rfl⟩
        exact ⟨entry, spells, known, (entry.inRange_iff order).mpr ⟨positive, inside⟩, by rw [same]⟩
  · rintro ⟨entry, spells, known, within, rfl⟩
    obtain ⟨positive, inside⟩ := (entry.inRange_iff order).mp within
    obtain ⟨rangePart, given, stepped, ranged, same⟩ : Loops spec chunk lo hi _ _ _ :=
      loops_iff.mpr ⟨entry, spells, known, positive, rfl, rfl, rfl⟩
    unfold parseChunk
    rw [if_neg (some_chars entry spells)]
    refine except_bind_ok.mpr ⟨(rangePart, given), stepped, except_bind_ok.mpr ⟨_, ranged, ?_⟩⟩
    dsimp only
    rw [if_neg inside, same]
    rfl

end Chunks

section Fields

def entriesOf (text : List Char) : List (List Char) := splitOn (· == ',') text

/- The forms of the documentation: a range has no step. -/
def CronEntry.Documented (entry : CronEntry) : Prop := ∀ a b k, entry ≠ .stepRange a b k

def DocumentedField (lo hi : Nat) (text : List Char) : Prop :=
  ∀ chunk ∈ entriesOf text, ∃ entry, Spells chunk entry ∧ entry.InRange lo hi ∧ entry.Documented

def FieldDenotes (lo hi : Nat) (text : List Char) (v : Nat) : Prop :=
  ∃ chunk ∈ entriesOf text, ∃ entry, Spells chunk entry ∧ entry.Denotes lo hi v

def TakenField (lo hi : Nat) (text : List Char) : Prop :=
  text = ['?'] ∨
    ∀ chunk ∈ entriesOf text, ∃ entry, Spells chunk entry ∧ entry ≠ .question ∧ entry.InRange lo hi

def FieldOverflows (lo hi : Nat) (text : List Char) : Prop :=
  ∃ chunk ∈ entriesOf text, ∃ start last step, Loops text (trim chunk) lo hi start last step ∧
    ∃ v ∈ stepValues last step (hi + 1) start, 2 ^ 32 ≤ v + step

def QuestionListed (text : List Char) : Prop := ['?'] ∈ entriesOf text ∧ text ≠ ['?']

def SteppedRange (text : List Char) : Prop :=
  ∃ chunk ∈ entriesOf text, ∃ a b k, Spells chunk (.stepRange a b k)

def LongStep (lo : Nat) (text : List Char) : Prop :=
  ∃ chunk ∈ entriesOf text, ∃ entry, Spells chunk entry ∧ 2 ^ 32 ≤ entry.start lo + entry.step

theorem sorted_dedup (values : List Nat) :
    ((values.insertionSort (· ≤ ·)).dedup).Pairwise (· < ·) := by
  have sorted : (values.insertionSort (· ≤ ·)).dedup.Pairwise (· ≤ ·) :=
    (List.pairwise_insertionSort (· ≤ ·) values).sublist (List.dedup_sublist _)
  have apart : (values.insertionSort (· ≤ ·)).dedup.Pairwise (· ≠ ·) := List.nodup_dedup _
  exact (sorted.and apart).imp fun both => lt_of_le_of_ne both.1 both.2

variable {lo hi : Nat} {text : List Char}

theorem trim_entry (plain : ∀ c ∈ text, isWhitespace c = false) {chunk : List Char}
    (member : chunk ∈ entriesOf text) : trim chunk = chunk :=
  trim_of_plain fun c here => plain c (mem_splitOn member c here).1

theorem fieldDenotes_wildcard {entry : CronEntry} (single : entriesOf text = [text])
    (spells : Spells text entry) (all : entry = .all ∨ entry = .question) (order : lo ≤ hi) (v : Nat) :
    v ∈ List.range' lo (hi + 1 - lo) ↔ FieldDenotes lo hi text v := by
  have denotes : entry.Denotes lo hi v ↔ lo ≤ v ∧ v ≤ hi := by
    have shape : entry.start lo = lo ∧ entry.step = 1 ∧ entry.last hi = hi := by
      rcases all with rfl | rfl <;> exact ⟨rfl, rfl, rfl⟩
    rw [CronEntry.Denotes, shape.1, shape.2.1, shape.2.2]
    constructor
    · rintro ⟨i, rfl, below⟩
      omega
    · rintro ⟨above, below⟩
      exact ⟨v - lo, by omega, below⟩
  rw [List.mem_range'_1]
  constructor
  · intro inside
    exact ⟨text, by rw [single]; exact List.mem_cons_self, entry, spells, denotes.mpr (by omega)⟩
  · rintro ⟨chunk, member, entry', spells', denotes'⟩
    rw [single, List.mem_singleton] at member
    subst member
    rw [← spells.unique spells', denotes] at denotes'
    omega

theorem parseField_wildcard (wild : text = ['*'] ∨ text = ['?']) :
    parseField text lo hi = .ok (List.range' lo (hi + 1 - lo)) := by
  unfold parseField
  rw [if_pos wild]
  rfl

theorem parseField_entries (wild : ¬ (text = ['*'] ∨ text = ['?'])) {values : List Nat} :
    parseField text lo hi = .ok values ↔
      ∃ each, (entriesOf text).mapM (fun chunk => parseChunk text (trim chunk) lo hi) = .ok each ∧
        values = (each.flatten.insertionSort (· ≤ ·)).dedup := by
  unfold parseField
  rw [if_neg wild]
  constructor
  · intro accepted
    obtain ⟨each, read, same⟩ := except_bind_ok.mp accepted
    exact ⟨each, read, (Except.ok.inj same).symm⟩
  · rintro ⟨each, read, rfl⟩
    exact except_bind_ok.mpr ⟨each, read, rfl⟩

theorem takenField_of_star : TakenField lo hi ['*'] := by
  right
  intro chunk member
  obtain rfl : chunk = ['*'] := by simpa [entriesOf, splitOn] using member
  exact ⟨.all, .all, by simp, trivial⟩

theorem parseField_isOk (order : lo ≤ hi) (plain : ∀ c ∈ text, isWhitespace c = false) :
    (∃ values, parseField text lo hi = .ok values) ↔ TakenField lo hi text := by
  by_cases wild : text = ['*'] ∨ text = ['?']
  · refine iff_of_true ⟨_, parseField_wildcard wild⟩ ?_
    obtain rfl | rfl := wild
    · exact takenField_of_star
    · exact .inl rfl
  · simp only [parseField_entries wild]
    constructor
    · rintro ⟨_, each, read, rfl⟩
      right
      intro chunk member
      obtain ⟨out, -, accepted⟩ := (except_mapM_mem read).1 chunk member
      rw [trim_entry plain member, parseChunk_ok order] at accepted
      obtain ⟨entry, spells, known, within, -⟩ := accepted
      exact ⟨entry, spells, known, within⟩
    · rintro (rfl | taken)
      · exact absurd (.inr rfl) wild
      · have each : ∀ chunk ∈ entriesOf text, ∃ out, parseChunk text (trim chunk) lo hi = .ok out := by
          intro chunk member
          obtain ⟨entry, spells, known, within⟩ := taken chunk member
          rw [trim_entry plain member]
          exact ⟨_, (parseChunk_ok order).mpr ⟨entry, spells, known, within, rfl⟩⟩
        obtain ⟨outs, read⟩ := except_mapM_exists each
        exact ⟨_, outs, read, rfl⟩

/-- In a field that is taken, an addition overflows behind the first number or not at all. -/
theorem fieldOverflows_iff (order : lo ≤ hi) (small : hi < 2 ^ 31)
    (plain : ∀ c ∈ text, isWhitespace c = false) (taken : TakenField lo hi text) :
    FieldOverflows lo hi text ↔ LongStep lo text := by
  have inside : ∀ {chunk : List Char} {entry : CronEntry}, chunk ∈ entriesOf text →
      Spells chunk entry → entry ≠ .question → entry.InRange lo hi := by
    intro chunk entry member spells known
    rcases taken with rfl | taken
    · obtain rfl : chunk = ['?'] := by simpa [entriesOf, splitOn] using member
      exact absurd (spells.unique .question) known
    · obtain ⟨entry', spells', -, within⟩ := taken chunk member
      rw [spells.unique spells']
      exact within
  constructor
  · rintro ⟨chunk, member, start, last, step, loops, v, pushed, over_u32⟩
    rw [trim_entry plain member, loops_iff] at loops
    obtain ⟨entry, spells, known, positive, rfl, rfl, rfl⟩ := loops
    refine ⟨chunk, member, entry, spells, ?_⟩
    obtain ⟨-, bounds⟩ := (entry.inRange_iff order).mp (inside member spells known)
    by_contra fits
    obtain ⟨i, rfl, below⟩ := (mem_stepValues positive (by omega) (by omega) (by omega) v).mp pushed
    cases i with
    | zero => omega
    | succ i =>
      have one : entry.step ≤ (i + 1) * entry.step := Nat.le_mul_of_pos_left _ (Nat.succ_pos i)
      omega
  · rintro ⟨chunk, member, entry, spells, long⟩
    have known : entry ≠ .question := by
      rintro rfl
      simp only [CronEntry.start, CronEntry.step] at long
      omega
    obtain ⟨positive, bounds⟩ := (entry.inRange_iff order).mp (inside member spells known)
    refine ⟨chunk, member, entry.start lo, entry.last hi, entry.step, ?_, entry.start lo, ?_, long⟩
    · rw [trim_entry plain member, loops_iff]
      exact ⟨entry, spells, known, positive, rfl, rfl, rfl⟩
    · rw [stepValues, if_pos (by omega)]
      exact List.mem_cons_self

/-- The list of a field ascends, and it is what the field stands for if no step is too long. -/
theorem parseField_ok (order : lo ≤ hi) (small : hi < 2 ^ 31)
    (plain : ∀ c ∈ text, isWhitespace c = false) {values : List Nat}
    (accepted : parseField text lo hi = .ok values) :
    values.Pairwise (· < ·) ∧
      (¬ LongStep lo text → ∀ v, v ∈ values ↔ FieldDenotes lo hi text v) := by
  by_cases wild : text = ['*'] ∨ text = ['?']
  · rw [parseField_wildcard wild] at accepted
    cases accepted
    refine ⟨List.pairwise_lt_range' .., fun _ v => ?_⟩
    obtain rfl | rfl := wild
    · exact fieldDenotes_wildcard rfl .all (.inl rfl) order v
    · exact fieldDenotes_wildcard rfl .question (.inr rfl) order v
  · obtain ⟨each, read, rfl⟩ := (parseField_entries wild).mp accepted
    refine ⟨sorted_dedup _, fun short v => ?_⟩
    obtain ⟨results, sources⟩ := except_mapM_mem read
    rw [List.mem_dedup, List.mem_insertionSort, List.mem_flatten]
    have entry_values : ∀ {chunk : List Char} {entry : CronEntry} (member : chunk ∈ entriesOf text),
        Spells chunk entry → entry.InRange lo hi →
          (v ∈ stepValues (entry.last hi) entry.step (hi + 1) (entry.start lo) ↔
            entry.Denotes lo hi v) := by
      intro chunk entry member spells within
      obtain ⟨positive, bounds⟩ := (entry.inRange_iff order).mp within
      have fits : entry.start lo + entry.step < 2 ^ 32 := by
        by_contra long
        exact short ⟨chunk, member, entry, spells, not_lt.mp long⟩
      exact mem_stepValues positive (by omega) fits (by omega) v
    constructor
    · rintro ⟨out, member, inside⟩
      obtain ⟨chunk, here, result⟩ := sources out member
      rw [trim_entry plain here, parseChunk_ok order] at result
      obtain ⟨entry, spells, -, within, rfl⟩ := result
      exact ⟨chunk, here, entry, spells, (entry_values here spells within).mp inside⟩
    · rintro ⟨chunk, here, entry, spells, denotes⟩
      obtain ⟨out, member, result⟩ := results chunk here
      rw [trim_entry plain here, parseChunk_ok order] at result
      obtain ⟨entry', spells', -, within, rfl⟩ := result
      rw [← spells.unique spells'] at member within
      exact ⟨_, member, (entry_values here spells within).mpr denotes⟩

theorem documented_iff_taken :
    (DocumentedField lo hi text → ¬ QuestionListed text → TakenField lo hi text) ∧
      (TakenField lo hi text → ¬ SteppedRange text → DocumentedField lo hi text) ∧
      (TakenField lo hi text → ¬ QuestionListed text) ∧
      (DocumentedField lo hi text → ¬ SteppedRange text) := by
  refine ⟨fun documented alone => ?_, fun taken plain chunk member => ?_, ?_, ?_⟩
  · by_cases question : text = ['?']
    · exact .inl question
    · right
      intro chunk member
      obtain ⟨entry, spells, within, -⟩ := documented chunk member
      refine ⟨entry, spells, ?_, within⟩
      rintro rfl
      cases spells with
      | question => exact alone ⟨member, question⟩
  · rcases taken with rfl | taken
    · obtain rfl : chunk = ['?'] := by simpa [entriesOf, splitOn] using member
      exact ⟨.question, .question, trivial, by simp [CronEntry.Documented]⟩
    · obtain ⟨entry, spells, -, within⟩ := taken chunk member
      refine ⟨entry, spells, within, ?_⟩
      rintro a b k rfl
      exact plain ⟨chunk, member, a, b, k, spells⟩
  · rintro (rfl | taken) ⟨member, other⟩
    · exact other rfl
    · obtain ⟨entry, spells, known, -⟩ := taken _ member
      exact known (spells.unique .question)
  · rintro documented ⟨chunk, member, a, b, k, spells⟩
    obtain ⟨entry, spells', -, plain⟩ := documented chunk member
    exact plain a b k (spells'.unique spells)

theorem le_of_fieldDenotes (order : lo ≤ hi) (taken : TakenField lo hi text) {v : Nat}
    (denotes : FieldDenotes lo hi text v) : lo ≤ v := by
  obtain ⟨chunk, member, entry, spells, i, rfl, -⟩ := denotes
  have start : lo ≤ entry.start lo := by
    rcases taken with rfl | taken
    · obtain rfl : chunk = ['?'] := by simpa [entriesOf, splitOn] using member
      rw [spells.unique .question]
      exact Nat.le_refl _
    · obtain ⟨entry', spells', -, within⟩ := taken chunk member
      rw [spells.unique spells']
      have bounds := ((entry'.inRange_iff order).mp within).2
      omega
  exact start.trans (Nat.le_add_right _ _)

end Fields

section Expressions

/- The fields of an expression by their names; six start with the seconds. -/
structure CronFields where
  seconds : Option (List Char)
  minutes : List Char
  hours : List Char
  daysOfMonth : List Char
  months : List Char
  daysOfWeek : List Char

def cronFields (expr : String) : Option CronFields :=
  match splitWhitespace expr.toList with
  | [seconds, minutes, hours, daysOfMonth, months, daysOfWeek] =>
    some { seconds := some seconds, minutes, hours, daysOfMonth, months, daysOfWeek }
  | [minutes, hours, daysOfMonth, months, daysOfWeek] =>
    some { seconds := none, minutes, hours, daysOfMonth, months, daysOfWeek }
  | _ => none

structure BoundedField where
  lo : Nat
  hi : Nat
  text : List Char

namespace CronFields

/- Days of the week are numbered from 1 in six fields, and from 0 in five. -/
def dayBounds (fields : CronFields) : Nat × Nat := if fields.seconds.isSome then (1, 7) else (0, 6)

def bounded (fields : CronFields) : List BoundedField :=
  (fields.seconds.toList.map fun text => ⟨0, 59, text⟩) ++
    [⟨0, 59, fields.minutes⟩, ⟨0, 23, fields.hours⟩, ⟨1, 31, fields.daysOfMonth⟩,
      ⟨1, 12, fields.months⟩, ⟨fields.dayBounds.1, fields.dayBounds.2, fields.daysOfWeek⟩]

def Every (fields : CronFields) (P : Nat → Nat → List Char → Prop) : Prop :=
  ∀ field ∈ fields.bounded, P field.lo field.hi field.text

def Some (fields : CronFields) (P : Nat → Nat → List Char → Prop) : Prop :=
  ∃ field ∈ fields.bounded, P field.lo field.hi field.text

end CronFields

def AscendsTo (values : List Nat) (denoted : Nat → Prop) : Prop :=
  values.Pairwise (· < ·) ∧ ∀ v, v ∈ values ↔ denoted v

structure CronSchedule.Denotes (schedule : CronSchedule) (fields : CronFields) : Prop where
  seconds : AscendsTo schedule.seconds fun v =>
    match fields.seconds with
    | some text => FieldDenotes 0 59 text v
    | none => v = 0
  minutes : AscendsTo schedule.minutes (FieldDenotes 0 59 fields.minutes)
  hours : AscendsTo schedule.hours (FieldDenotes 0 23 fields.hours)
  daysOfMonth : AscendsTo schedule.daysOfMonth (FieldDenotes 1 31 fields.daysOfMonth)
  months : AscendsTo schedule.months (FieldDenotes 1 12 fields.months)
  daysOfWeek : AscendsTo schedule.daysOfWeek fun v =>
    if fields.seconds.isSome then FieldDenotes 1 7 fields.daysOfWeek (v + 1)
    else FieldDenotes 0 6 fields.daysOfWeek v

/- Expressions are parsed when they are documented, to a schedule that denotes them, and no step of the
expansion overflows. -/
def ParsesLanguage (expr : String) : Prop :=
  match CronSchedule.parse expr with
  | .ok schedule => ∃ fields, cronFields expr = some fields ∧ fields.Every DocumentedField ∧
      schedule.Denotes fields ∧ ¬ fields.Some FieldOverflows
  | .error _ => ¬ ∃ fields, cronFields expr = some fields ∧ fields.Every DocumentedField

/- No list with a question mark in a documented expression; and in one whose fields are taken no range
with a step, no step that is too long, and no Saturday in six fields. -/
def Unmistaken (expr : String) : Prop :=
  ∀ fields, cronFields expr = some fields →
    (fields.Every DocumentedField → ¬ fields.Some fun _ _ => QuestionListed) ∧
    (fields.Every TakenField → (¬ fields.Some fun _ _ => SteppedRange) ∧
      (¬ fields.Some fun lo _ => LongStep lo) ∧
      ¬ (fields.seconds.isSome = true ∧ FieldDenotes 1 7 fields.daysOfWeek 7))

structure CronSchedule.ReadFrom (schedule : CronSchedule) (fields : CronFields) : Prop where
  seconds : match fields.seconds with
    | some text => parseField text 0 59 = .ok schedule.seconds
    | none => schedule.seconds = [0]
  minutes : parseField fields.minutes 0 59 = .ok schedule.minutes
  hours : parseField fields.hours 0 23 = .ok schedule.hours
  daysOfMonth : parseField fields.daysOfMonth 1 31 = .ok schedule.daysOfMonth
  months : parseField fields.months 1 12 = .ok schedule.months
  daysOfWeek : ∃ days, parseField fields.daysOfWeek fields.dayBounds.1 fields.dayBounds.2 = .ok days ∧
    schedule.daysOfWeek = if fields.seconds.isSome then days.map quartzDay else days

theorem parse_readFrom {expr : String} {schedule : CronSchedule}
    (accepted : CronSchedule.parse expr = .ok schedule) :
    ∃ fields, cronFields expr = some fields ∧ schedule.ReadFrom fields := by
  unfold CronSchedule.parse at accepted
  split at accepted
  · rename_i seconds minutes hours daysOfMonth months daysOfWeek split
    unfold cronFields
    rw [split]
    obtain ⟨sec, read_seconds, accepted⟩ := except_bind_ok.mp accepted
    obtain ⟨min, read_minutes, accepted⟩ := except_bind_ok.mp accepted
    obtain ⟨hrs, read_hours, accepted⟩ := except_bind_ok.mp accepted
    obtain ⟨dom, read_days, accepted⟩ := except_bind_ok.mp accepted
    obtain ⟨mon, read_months, accepted⟩ := except_bind_ok.mp accepted
    obtain ⟨dow, read_week, same⟩ := except_bind_ok.mp accepted
    cases same
    obtain ⟨days, read, rfl⟩ := except_map_ok.mp read_week
    exact ⟨_, rfl, read_seconds, read_minutes, read_hours, read_days, read_months, days, read, rfl⟩
  · rename_i minutes hours daysOfMonth months daysOfWeek split
    unfold cronFields
    rw [split]
    obtain ⟨min, read_minutes, accepted⟩ := except_bind_ok.mp accepted
    obtain ⟨hrs, read_hours, accepted⟩ := except_bind_ok.mp accepted
    obtain ⟨dom, read_days, accepted⟩ := except_bind_ok.mp accepted
    obtain ⟨mon, read_months, accepted⟩ := except_bind_ok.mp accepted
    obtain ⟨dow, read_week, same⟩ := except_bind_ok.mp accepted
    cases same
    exact ⟨_, rfl, rfl, read_minutes, read_hours, read_days, read_months, dow, read_week, rfl⟩
  · cases accepted

theorem CronFields.every_iff {fields : CronFields} {P : Nat → Nat → List Char → Prop} :
    fields.Every P ↔ (∀ text ∈ fields.seconds, P 0 59 text) ∧ P 0 59 fields.minutes ∧
      P 0 23 fields.hours ∧ P 1 31 fields.daysOfMonth ∧ P 1 12 fields.months ∧
      P fields.dayBounds.1 fields.dayBounds.2 fields.daysOfWeek := by
  unfold Every bounded
  cases fields.seconds <;> simp

theorem parse_of_every {expr : String} {fields : CronFields} (split : cronFields expr = some fields)
    (each : fields.Every fun lo hi text => ∃ values, parseField text lo hi = .ok values) :
    ∃ schedule, CronSchedule.parse expr = .ok schedule := by
  obtain ⟨seconds, ⟨min, read_minutes⟩, ⟨hrs, read_hours⟩, ⟨dom, read_days⟩, ⟨mon, read_months⟩,
    dow, read_week⟩ := CronFields.every_iff.mp each
  unfold cronFields at split
  split at split
  · rename_i pieces
    obtain rfl := Option.some.inj split
    obtain ⟨sec, read_seconds⟩ := seconds _ rfl
    unfold CronSchedule.parse
    rw [pieces]
    have days : parseField _ 1 7 = Except.ok dow := read_week
    dsimp only at read_minutes read_hours read_days read_months
    refine ⟨⟨sec, min, hrs, dom, mon, dow.map quartzDay, true⟩, ?_⟩
    simp only [read_seconds, CronSchedule.parseFields, read_minutes, read_hours, read_days, read_months,
      days]
    rfl
  · rename_i pieces
    obtain rfl := Option.some.inj split
    unfold CronSchedule.parse
    rw [pieces]
    have days : parseField _ 0 6 = Except.ok dow := read_week
    dsimp only at read_minutes read_hours read_days read_months
    refine ⟨⟨[0], min, hrs, dom, mon, dow, false⟩, ?_⟩
    simp only [CronSchedule.parseFields, read_minutes, read_hours, read_days, read_months, days]
    rfl
  · cases split

/-- The bounds of a field are small and in order, and its text has no whitespace. -/
theorem CronFields.bounds {expr : String} {fields : CronFields} (split : cronFields expr = some fields) :
    ∀ field ∈ fields.bounded, field.lo ≤ field.hi ∧ field.hi < 2 ^ 31 ∧
      ∀ c ∈ field.text, isWhitespace c = false := by
  have texts : ∀ field ∈ fields.bounded, field.text ∈ splitWhitespace expr.toList := by
    unfold cronFields at split
    split at split
    · rename_i pieces
      obtain rfl := Option.some.inj split
      rw [pieces]
      simp [bounded]
    · rename_i pieces
      obtain rfl := Option.some.inj split
      rw [pieces]
      simp [bounded]
    · cases split
  have sizes : fields.Every fun lo hi _ => lo ≤ hi ∧ hi < 2 ^ 31 := by
    refine every_iff.mpr ⟨fun _ _ => by decide, by decide, by decide, by decide, by decide, ?_⟩
    unfold dayBounds
    split <;> decide
  intro field member
  exact ⟨(sizes field member).1, (sizes field member).2, plain_of_mem_splitWhitespace (texts field member)⟩

theorem parse_iff_taken {expr : String} {fields : CronFields} (split : cronFields expr = some fields) :
    (∃ schedule, CronSchedule.parse expr = .ok schedule) ↔ fields.Every TakenField := by
  have each : fields.Every TakenField ↔
      fields.Every fun lo hi text => ∃ values, parseField text lo hi = .ok values := by
    constructor
    · intro taken field member
      obtain ⟨order, -, plain⟩ := CronFields.bounds split field member
      exact (parseField_isOk order plain).mpr (taken field member)
    · intro read field member
      obtain ⟨order, -, plain⟩ := CronFields.bounds split field member
      exact (parseField_isOk order plain).mp (read field member)
  rw [each]
  constructor
  · rintro ⟨schedule, accepted⟩
    obtain ⟨fields', split', read⟩ := parse_readFrom accepted
    rw [split] at split'
    obtain rfl := Option.some.inj split'
    refine CronFields.every_iff.mpr ⟨?_, ⟨_, read.minutes⟩, ⟨_, read.hours⟩, ⟨_, read.daysOfMonth⟩,
      ⟨_, read.months⟩, ?_⟩
    · intro text six
      have seconds := read.seconds
      rw [Option.mem_def.mp six] at seconds
      exact ⟨_, seconds⟩
    · obtain ⟨days, days_read, -⟩ := read.daysOfWeek
      exact ⟨_, days_read⟩
  · exact parse_of_every split

/-- Where no step is too long, the lists that are read are those of their fields; the days of the week
before they are renumbered. -/
theorem CronSchedule.ReadFrom.ascends {expr : String} {schedule : CronSchedule} {fields : CronFields}
    (split : cronFields expr = some fields) (read : schedule.ReadFrom fields)
    (short : ¬ fields.Some fun lo _ => LongStep lo) :
    (AscendsTo schedule.seconds fun v =>
      match fields.seconds with
      | some text => FieldDenotes 0 59 text v
      | none => v = 0) ∧
    AscendsTo schedule.minutes (FieldDenotes 0 59 fields.minutes) ∧
    AscendsTo schedule.hours (FieldDenotes 0 23 fields.hours) ∧
    AscendsTo schedule.daysOfMonth (FieldDenotes 1 31 fields.daysOfMonth) ∧
    AscendsTo schedule.months (FieldDenotes 1 12 fields.months) ∧
    ∃ days, AscendsTo days (FieldDenotes fields.dayBounds.1 fields.dayBounds.2 fields.daysOfWeek) ∧
      schedule.daysOfWeek = if fields.seconds.isSome then days.map quartzDay else days := by
  have each : fields.Every fun lo hi text => ∀ values, parseField text lo hi = .ok values →
      AscendsTo values (FieldDenotes lo hi text) := by
    intro field member values accepted
    obtain ⟨order, small, plain⟩ := CronFields.bounds split field member
    obtain ⟨ascends, denotes⟩ := parseField_ok order small plain accepted
    exact ⟨ascends, denotes fun long => short ⟨field, member, long⟩⟩
  obtain ⟨seconds, minutes, hours, daysOfMonth, months, daysOfWeek⟩ := CronFields.every_iff.mp each
  obtain ⟨days, days_read, renumbered⟩ := read.daysOfWeek
  refine ⟨?_, minutes _ read.minutes, hours _ read.hours, daysOfMonth _ read.daysOfMonth,
    months _ read.months, days, daysOfWeek days days_read, renumbered⟩
  have here := read.seconds
  cases six : fields.seconds with
  | some text =>
    rw [six] at here
    exact seconds text six _ here
  | none =>
    rw [six] at here
    rw [here]
    exact ⟨List.pairwise_singleton _ _, fun v => List.mem_singleton⟩

/-- From Sunday to Friday, Quartz numbers are one more than those of the schedule. -/
theorem ascendsTo_quartz {days : List Nat} {denoted : Nat → Prop} (ascends : AscendsTo days denoted)
    (positive : ∀ v, denoted v → 1 ≤ v) (saturday : ¬ denoted 7) :
    AscendsTo (days.map quartzDay) fun v => denoted (v + 1) := by
  obtain ⟨sorted, members⟩ := ascends
  have shift : ∀ v ∈ days, v = quartzDay v + 1 := by
    intro v member
    have one := positive v ((members v).mp member)
    have other : v ≠ 7 := by
      rintro rfl
      exact saturday ((members 7).mp member)
    rw [quartzDay, if_neg other]
    omega
  constructor
  · rw [List.pairwise_map]
    refine sorted.imp_of_mem fun {a b} first second less => ?_
    have a_shift := shift a first
    have b_shift := shift b second
    omega
  · intro v
    rw [List.mem_map]
    constructor
    · rintro ⟨n, member, rfl⟩
      rw [← shift n member]
      exact (members n).mp member
    · intro later
      have member := (members _).mpr later
      exact ⟨v + 1, member, Nat.succ.inj (shift _ member).symm⟩

theorem not_ascendsTo_saturday {days : List Nat} {denoted : Nat → Prop} (saturday : denoted 7) :
    ¬ AscendsTo (days.map quartzDay) fun v => denoted (v + 1) := by
  rintro ⟨-, members⟩
  obtain ⟨n, -, six⟩ := List.mem_map.mp ((members 6).mpr saturday)
  unfold quartzDay at six
  split at six <;> omega

/-- Of an expression whose fields are taken, the schedule denotes it without overflow if no step is too long
and no Saturday is meant, and only then. -/
theorem denotes_iff {expr : String} {schedule : CronSchedule} {fields : CronFields}
    (split : cronFields expr = some fields) (read : schedule.ReadFrom fields)
    (taken : fields.Every TakenField) :
    (schedule.Denotes fields ∧ ¬ fields.Some FieldOverflows) ↔
      (¬ fields.Some fun lo _ => LongStep lo) ∧
        ¬ (fields.seconds.isSome = true ∧ FieldDenotes 1 7 fields.daysOfWeek 7) := by
  have overflows : fields.Some FieldOverflows ↔ fields.Some fun lo _ => LongStep lo := by
    constructor
    · rintro ⟨field, member, overflow⟩
      obtain ⟨order, small, plain⟩ := CronFields.bounds split field member
      exact ⟨field, member, (fieldOverflows_iff order small plain (taken field member)).mp overflow⟩
    · rintro ⟨field, member, long⟩
      obtain ⟨order, small, plain⟩ := CronFields.bounds split field member
      exact ⟨field, member, (fieldOverflows_iff order small plain (taken field member)).mpr long⟩
  rw [overflows, and_comm]
  refine and_congr_right fun short => ?_
  obtain ⟨seconds, minutes, hours, daysOfMonth, months, days, week, renumbered⟩ :=
    read.ascends split short
  have last := (CronFields.every_iff.mp taken).2.2.2.2.2
  constructor
  · rintro denotes ⟨six, saturday⟩
    have named := denotes.daysOfWeek
    rw [renumbered] at named
    simp only [if_pos six] at named
    exact not_ascendsTo_saturday saturday named
  · intro no_saturday
    refine ⟨seconds, minutes, hours, daysOfMonth, months, ?_⟩
    rw [renumbered]
    by_cases six : fields.seconds.isSome = true
    · have numbers : fields.dayBounds = (1, 7) := if_pos six
      rw [numbers] at week last
      simp only [if_pos six]
      exact ascendsTo_quartz week (fun v => le_of_fieldDenotes (by decide) last)
        fun saturday => no_saturday ⟨six, saturday⟩
    · have numbers : fields.dayBounds = (0, 6) := if_neg six
      rw [numbers] at week
      simp only [if_neg six]
      exact week

theorem every_documented_iff (fields : CronFields) :
    (fields.Every DocumentedField → (¬ fields.Some fun _ _ => QuestionListed) → fields.Every TakenField) ∧
      (fields.Every TakenField → (¬ fields.Some fun _ _ => SteppedRange) → fields.Every DocumentedField) ∧
      (fields.Every TakenField → ¬ fields.Some fun _ _ => QuestionListed) ∧
      (fields.Every DocumentedField → ¬ fields.Some fun _ _ => SteppedRange) := by
  refine ⟨fun documented alone field member => ?_, fun taken plain field member => ?_, ?_, ?_⟩
  · exact documented_iff_taken.1 (documented field member) fun listed => alone ⟨field, member, listed⟩
  · exact documented_iff_taken.2.1 (taken field member) fun range => plain ⟨field, member, range⟩
  · rintro taken ⟨field, member, listed⟩
    exact documented_iff_taken.2.2.1 (taken field member) listed
  · rintro documented ⟨field, member, range⟩
    exact documented_iff_taken.2.2.2 (documented field member) range

/-- An expression is parsed as documented if it has none of the four mistaken forms, and only then. -/
theorem parsesLanguage_iff (expr : String) : ParsesLanguage expr ↔ Unmistaken expr := by
  unfold ParsesLanguage Unmistaken
  cases outcome : CronSchedule.parse expr with
  | ok schedule =>
    obtain ⟨fields, split, read⟩ := parse_readFrom outcome
    have taken := (parse_iff_taken split).mp ⟨schedule, outcome⟩
    obtain ⟨-, documented_of, alone_of, plain_of⟩ := every_documented_iff fields
    have only : ∀ P : CronFields → Prop,
        (∀ other, cronFields expr = some other → P other) ↔ P fields := by
      intro P
      rw [split]
      exact ⟨fun each => each fields rfl, fun here other same => Option.some.inj same ▸ here⟩
    rw [only]
    have denotes := denotes_iff split read taken
    constructor
    · rintro ⟨fields', split', documented, named⟩
      rw [split] at split'
      obtain rfl := Option.some.inj split'
      exact ⟨fun _ => alone_of taken, fun _ => ⟨plain_of documented, denotes.mp named⟩⟩
    · rintro ⟨-, sound⟩
      obtain ⟨plain, fine⟩ := sound taken
      exact ⟨fields, split, documented_of taken plain, denotes.mpr fine⟩
  | error e =>
    have refused : ∀ fields, cronFields expr = some fields → ¬ fields.Every TakenField := by
      intro fields split taken
      obtain ⟨schedule, accepted⟩ := (parse_iff_taken split).mpr taken
      rw [outcome] at accepted
      cases accepted
    constructor
    · intro undocumented fields split
      exact ⟨fun documented => absurd ⟨fields, split, documented⟩ undocumented,
        fun taken => absurd taken (refused fields split)⟩
    · rintro sound ⟨fields, split, documented⟩
      exact refused fields split
        ((every_documented_iff fields).1 documented ((sound fields split).1 documented))

/-- Every day at half past one, in six fields: Sunday is named twice, and Saturday not at all. -/
theorem not_parsesLanguage_daily : ¬ ParsesLanguage "0 30 1 * * ?" := by
  have read : CronSchedule.parse "0 30 1 * * ?" = .ok {
      seconds := [0], minutes := [30], hours := [1], daysOfMonth := List.range' 1 31,
      months := List.range' 1 12, daysOfWeek := [0, 1, 2, 3, 4, 5, 0], hadSeconds := true } := by
    decide +kernel
  unfold ParsesLanguage
  rw [read]
  rintro ⟨fields, -, -, denotes, -⟩
  have sorted := denotes.daysOfWeek.1
  revert sorted
  decide

end Expressions

end Surch.Slm
