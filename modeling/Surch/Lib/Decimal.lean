import Mathlib.Data.String.Basic
import Mathlib.Data.List.Basic
import Mathlib.Tactic.Ring

/-! Decimal numerals: padded to one width they compare as the numbers do, and a reader of numerals
takes padding for what it is. -/
namespace Surch.Lib

/- The numeral of `n`, with zeros in front up to the width. -/
def zeroPadded (width n : Nat) : List Char :=
  List.replicate (width - (Nat.toDigits 10 n).length) '0' ++ Nat.toDigits 10 n

def withoutPlus : List Char → List Char
  | '+' :: rest => rest
  | text => text

/- `str::parse` to an unsigned number below the bound. -/
def parseUnsigned (bound : Nat) (text : List Char) : Option Nat :=
  let digits := withoutPlus text
  if digits.isEmpty ∨ ¬ digits.all Char.isDigit then none
  else if Nat.ofDigitChars 10 digits 0 < bound then some (Nat.ofDigitChars 10 digits 0)
  else none

theorem zeroPadded_isDigit {width n : Nat} {c : Char} (member : c ∈ zeroPadded width n) :
    c.isDigit = true := by
  rcases List.mem_append.mp member with zero | digit
  · obtain rfl := List.eq_of_mem_replicate zero
    decide
  · exact Nat.isDigit_of_mem_toDigits (by decide) (by decide) digit

theorem ofDigitChars_zeroPadded (width n : Nat) :
    Nat.ofDigitChars 10 (zeroPadded width n) 0 = n := by
  rw [zeroPadded, Nat.ofDigitChars_append, Nat.ofDigitChars_replicate_zero, Nat.mul_zero,
    Nat.ofDigitChars_ten_toDigits]

theorem zeroPadded_ne_nil (width n : Nat) : zeroPadded width n ≠ [] := by
  intro empty
  exact Nat.toDigits_ne_nil (List.append_eq_nil_iff.mp empty).2

theorem parseUnsigned_lt {bound n : Nat} {text : List Char}
    (parsed : parseUnsigned bound text = some n) : n < bound := by
  obtain ⟨-, parsed⟩ := Option.ite_none_left_eq_some.mp parsed
  obtain ⟨small, same⟩ := Option.ite_none_right_eq_some.mp parsed
  exact Option.some.inj same ▸ small

theorem withoutPlus_digits {digits : List Char} (decimal : ∀ c ∈ digits, c.isDigit = true) :
    withoutPlus digits = digits := by
  unfold withoutPlus
  split
  · exact absurd (decimal '+' List.mem_cons_self) (by decide)
  · rfl

theorem parseUnsigned_digits {bound : Nat} {digits : List Char} (full : digits ≠ [])
    (decimal : ∀ c ∈ digits, c.isDigit = true) :
    parseUnsigned bound digits =
      if Nat.ofDigitChars 10 digits 0 < bound then some (Nat.ofDigitChars 10 digits 0) else none := by
  have fine : ¬ (digits.isEmpty = true ∨ ¬ digits.all Char.isDigit = true) := by
    rw [not_or, not_not, List.isEmpty_iff, List.all_eq_true]
    exact ⟨full, decimal⟩
  simp only [parseUnsigned, withoutPlus_digits decimal, if_neg fine]

theorem parseUnsigned_plus {bound : Nat} {digits : List Char}
    (decimal : ∀ c ∈ digits, c.isDigit = true) :
    parseUnsigned bound ('+' :: digits) = parseUnsigned bound digits := by
  have stripped : withoutPlus ('+' :: digits) = digits := rfl
  simp only [parseUnsigned, stripped, withoutPlus_digits decimal]

theorem parseUnsigned_zeroPadded {bound width n : Nat} (small : n < bound) :
    parseUnsigned bound (zeroPadded width n) = some n := by
  rw [parseUnsigned_digits (zeroPadded_ne_nil width n) fun c member => zeroPadded_isDigit member,
    ofDigitChars_zeroPadded, if_pos small]

theorem zeroPadded_length {width n : Nat} (fits : n < 10 ^ width) (wide : 0 < width) :
    (zeroPadded width n).length = width := by
  have short := (Nat.length_toDigits_le_iff (b := 10) (n := n) (k := width) (by decide) wide).mpr fits
  rw [zeroPadded, List.length_append, List.length_replicate]
  omega

theorem ofDigitChars_lt {text : List Char} (digits : ∀ c ∈ text, c.isDigit = true) :
    Nat.ofDigitChars 10 text 0 < 10 ^ text.length := by
  induction text with
  | nil => simp
  | cons c text ih =>
    have rest := ih fun d member => digits d (List.mem_cons_of_mem _ member)
    have digit := digits c List.mem_cons_self
    have small : c.toNat - '0'.toNat < 10 := by
      have bounds := Char.isDigit_iff_toNat.mp digit
      have nine : '9'.toNat = 57 := rfl
      have zero : '0'.toNat = 48 := rfl
      omega
    rw [Nat.ofDigitChars_cons, Nat.ofDigitChars_eq_ofDigitChars_zero, Nat.mul_zero, Nat.zero_add,
      List.length_cons, Nat.pow_succ]
    calc 10 ^ text.length * (c.toNat - '0'.toNat) + Nat.ofDigitChars 10 text 0
        < 10 ^ text.length * (c.toNat - '0'.toNat) + 10 ^ text.length := by omega
      _ = 10 ^ text.length * (c.toNat - '0'.toNat + 1) := by ring
      _ ≤ 10 ^ text.length * 10 := Nat.mul_le_mul_left _ (by omega)

theorem lt_of_ofDigitChars_lt {xs ys : List Char} (length : xs.length = ys.length)
    (digits : ∀ c ∈ xs, c.isDigit = true) (digits' : ∀ c ∈ ys, c.isDigit = true)
    (below : Nat.ofDigitChars 10 xs 0 < Nat.ofDigitChars 10 ys 0) : xs < ys := by
  induction xs generalizing ys with
  | nil =>
    have empty : ys = [] := List.length_eq_zero_iff.mp length.symm
    rw [empty] at below
    exact absurd below (lt_irrefl _)
  | cons x xs ih =>
    cases ys with
    | nil => cases length
    | cons y ys =>
      have lengths : xs.length = ys.length := Nat.succ.inj length
      have small := ofDigitChars_lt fun c member => digits' c (List.mem_cons_of_mem _ member)
      have above := (Char.isDigit_iff_toNat.mp (digits' y List.mem_cons_self)).1
      have zero : '0'.toNat = 48 := rfl
      rw [zero] at above
      simp only [Nat.ofDigitChars_cons, Nat.mul_zero, Nat.zero_add, zero] at below
      rw [Nat.ofDigitChars_eq_ofDigitChars_zero,
        @Nat.ofDigitChars_eq_ofDigitChars_zero ys, lengths] at below
      rw [List.cons_lt_cons_iff]
      rcases Nat.lt_trichotomy x.toNat y.toNat with less | same | more
      · left
        exact less
      · right
        have equal : x = y := Char.toNat_inj.mp same
        refine ⟨equal, ih lengths ?_ ?_ ?_⟩
        · exact fun c member => digits c (List.mem_cons_of_mem _ member)
        · exact fun c member => digits' c (List.mem_cons_of_mem _ member)
        · rw [same] at below
          omega
      · -- a larger first digit outweighs all that follow
        exfalso
        have gap : y.toNat - 48 + 1 ≤ x.toNat - 48 := by clear below; omega
        have weight := Nat.mul_le_mul_left (10 ^ ys.length) gap
        rw [Nat.mul_add, Nat.mul_one] at weight
        omega

theorem eq_of_ofDigitChars_eq {xs ys : List Char} (length : xs.length = ys.length)
    (digits : ∀ c ∈ xs, c.isDigit = true) (digits' : ∀ c ∈ ys, c.isDigit = true)
    (same : Nat.ofDigitChars 10 xs 0 = Nat.ofDigitChars 10 ys 0) : xs = ys := by
  induction xs generalizing ys with
  | nil => exact (List.length_eq_zero_iff.mp length.symm).symm
  | cons x xs ih =>
    cases ys with
    | nil => cases length
    | cons y ys =>
      have lengths : xs.length = ys.length := Nat.succ.inj length
      have tail := fun c member => digits c (List.mem_cons_of_mem _ member)
      have tail' := fun c member => digits' c (List.mem_cons_of_mem _ member)
      have small := ofDigitChars_lt tail
      have small' := ofDigitChars_lt tail'
      have above := (Char.isDigit_iff_toNat.mp (digits x List.mem_cons_self)).1
      have above' := (Char.isDigit_iff_toNat.mp (digits' y List.mem_cons_self)).1
      have zero : '0'.toNat = 48 := rfl
      rw [zero] at above above'
      simp only [Nat.ofDigitChars_cons, Nat.mul_zero, Nat.zero_add, zero] at same
      rw [Nat.ofDigitChars_eq_ofDigitChars_zero,
        @Nat.ofDigitChars_eq_ofDigitChars_zero ys, lengths] at same
      rw [lengths] at small
      have positive : 0 < 10 ^ ys.length := Nat.pow_pos (by decide)
      have firsts := congrArg (· / 10 ^ ys.length) same
      simp only [Nat.mul_add_div positive, Nat.div_eq_of_lt small, Nat.div_eq_of_lt small',
        Nat.add_zero] at firsts
      have equal : x = y := Char.toNat_inj.mp (by omega)
      rw [firsts] at same
      rw [equal, ih lengths tail tail' (Nat.add_left_cancel same)]

theorem zeroPadded_ofDigitChars {digits : List Char} (some_digits : 0 < digits.length)
    (all : ∀ c ∈ digits, c.isDigit = true) :
    zeroPadded digits.length (Nat.ofDigitChars 10 digits 0) = digits := by
  apply eq_of_ofDigitChars_eq
  · exact zeroPadded_length (ofDigitChars_lt all) some_digits
  · exact fun c member => zeroPadded_isDigit member
  · exact all
  · exact ofDigitChars_zeroPadded _ _

theorem zeroPadded_lt {width m n : Nat} (below : m < n) (fits : n < 10 ^ width) (wide : 0 < width) :
    zeroPadded width m < zeroPadded width n := by
  apply lt_of_ofDigitChars_lt
  · rw [zeroPadded_length fits wide, zeroPadded_length (by omega) wide]
  · exact fun c member => zeroPadded_isDigit member
  · exact fun c member => zeroPadded_isDigit member
  · rwa [ofDigitChars_zeroPadded, ofDigitChars_zeroPadded]

/-- What follows equally long lists does not matter once they differ. -/
theorem append_lt_append {xs ys : List Char} (length : xs.length = ys.length) (below : xs < ys)
    (us vs : List Char) : xs ++ us < ys ++ vs := by
  induction xs generalizing ys with
  | nil =>
    have empty : ys = [] := List.length_eq_zero_iff.mp length.symm
    rw [empty] at below
    exact absurd below (lt_irrefl _)
  | cons x xs ih =>
    cases ys with
    | nil => cases length
    | cons y ys =>
      rw [List.cons_append, List.cons_append, List.cons_lt_cons_iff]
      rcases List.cons_lt_cons_iff.mp below with less | ⟨same, rest⟩
      · exact .inl less
      · exact .inr ⟨same, ih (Nat.succ.inj length) rest⟩

end Surch.Lib
