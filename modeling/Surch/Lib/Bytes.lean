import Mathlib.Data.Nat.Digits.Lemmas
import Mathlib.Data.Nat.Bitwise
import Mathlib.Tactic.Ring

/-! Byte strings read as little-endian and as big-endian numbers.
Everything below is stated for byte lists of any length; no word size is fixed. -/
namespace Surch.Lib

/- Bytes in numerical order; byte strings are then compared as `[u8]` is. -/
instance linearOrderUInt8 : LinearOrder UInt8 where
  le_refl := UInt8.le_refl
  le_trans _ _ _ := UInt8.le_trans
  le_antisymm _ _ := UInt8.le_antisymm
  le_total := UInt8.le_total
  lt_iff_le_not_ge a b := by
    rw [UInt8.le_iff_toNat_le, UInt8.le_iff_toNat_le, UInt8.lt_iff_toNat_lt]
    omega
  toDecidableLE := inferInstance
  toDecidableEq := inferInstance
  toDecidableLT := inferInstance

/-- The number a byte string spells, least significant byte first. -/
def leNat (bytes : List UInt8) : Nat := Nat.ofDigits 256 (bytes.map UInt8.toNat)

/-- The `width` low bytes of a number, least significant byte first. -/
def leBytes : Nat → Nat → List UInt8
  | 0, _ => []
  | width + 1, n => UInt8.ofNat n :: leBytes width (n / 256)

@[simp] theorem leNat_nil : leNat [] = 0 := rfl

@[simp] theorem leNat_cons (b : UInt8) (bytes : List UInt8) :
    leNat (b :: bytes) = b.toNat + 256 * leNat bytes := by
  simp [leNat, Nat.ofDigits_cons]

theorem leNat_replicate_zero (n : Nat) : leNat (List.replicate n 0) = 0 := by
  induction n with
  | zero => rfl
  | succ n ih => simp [List.replicate_succ, ih]

@[simp] theorem leBytes_length (width n : Nat) : (leBytes width n).length = width := by
  induction width generalizing n with
  | zero => rfl
  | succ width ih => simp [leBytes, ih]

theorem leNat_leBytes (width n : Nat) : leNat (leBytes width n) = n % 256 ^ width := by
  induction width generalizing n with
  | zero => simp [leBytes, Nat.mod_one]
  | succ width ih =>
    simp only [leBytes, leNat_cons, UInt8.toNat_ofNat', ih]
    rw [Nat.pow_succ' (m := 256), Nat.mod_mul]

theorem leNat_leBytes_of_lt {width n : Nat} (fits : n < 256 ^ width) :
    leNat (leBytes width n) = n := by
  rw [leNat_leBytes, Nat.mod_eq_of_lt fits]

theorem leNat_digit (bytes : List UInt8) (i : Nat) (inside : i < bytes.length) :
    bytes[i].toNat = leNat bytes / 256 ^ i % 256 := by
  induction bytes generalizing i with
  | nil => simp at inside
  | cons b bytes ih =>
    have hb := b.toNat_lt
    cases i with
    | zero => simp only [List.getElem_cons_zero, leNat_cons, Nat.pow_zero, Nat.div_one]; omega
    | succ i =>
      have shift : leNat (b :: bytes) / 256 ^ (i + 1) = leNat bytes / 256 ^ i := by
        rw [Nat.pow_succ, Nat.mul_comm, ← Nat.div_div_eq_div_mul, leNat_cons]
        congr 1
        omega
      rw [shift, List.getElem_cons_succ]
      exact ih i (by simpa using inside)

theorem leBytes_leNat (bytes : List UInt8) : leBytes bytes.length (leNat bytes) = bytes := by
  induction bytes with
  | nil => rfl
  | cons b bytes ih =>
    have hb := b.toNat_lt
    have low : UInt8.ofNat (b.toNat + 256 * leNat bytes) = b := by
      apply UInt8.toNat_inj.mp
      rw [UInt8.toNat_ofNat']
      omega
    have high : (b.toNat + 256 * leNat bytes) / 256 = leNat bytes := by omega
    rw [List.length_cons, leNat_cons, leBytes, low, high, ih]

theorem leNat_set (bytes : List UInt8) (i : Nat) (b : UInt8) (inside : i < bytes.length) :
    leNat (bytes.set i b) + 256 ^ i * bytes[i].toNat = leNat bytes + 256 ^ i * b.toNat := by
  induction bytes generalizing i with
  | nil => simp at inside
  | cons c bytes ih =>
    cases i with
    | zero => simp only [List.set_cons_zero, leNat_cons, List.getElem_cons_zero]; omega
    | succ i =>
      have step := ih i (by simpa using inside)
      simp only [List.set_cons_succ, leNat_cons, List.getElem_cons_succ]
      rw [Nat.pow_succ, Nat.mul_comm (256 ^ i) 256, Nat.mul_assoc, Nat.mul_assoc]
      omega

theorem byte_lt_of_leNat_lt (bytes : List UInt8) (i k : Nat) (inside : i < bytes.length)
    (small : leNat bytes < 2 ^ (8 * i + k)) : bytes[i].toNat < 2 ^ k := by
  rw [leNat_digit bytes i inside]
  apply Nat.lt_of_le_of_lt (Nat.mod_le _ _)
  apply Nat.div_lt_of_lt_mul
  have weight : 256 ^ i * 2 ^ k = 2 ^ (8 * i + k) := by
    rw [Nat.pow_add, Nat.pow_mul]
  rw [weight]
  exact small

/-- The `width` low bytes of a number, most significant byte first. -/
def beBytes (width n : Nat) : List UInt8 := (leBytes width n).reverse

/-- The number a byte string spells, most significant byte first. -/
def beNat (bytes : List UInt8) : Nat := leNat bytes.reverse

@[simp] theorem beBytes_length (width n : Nat) : (beBytes width n).length = width := by
  simp [beBytes]

theorem beNat_beBytes_of_lt {width n : Nat} (fits : n < 256 ^ width) :
    beNat (beBytes width n) = n := by
  rw [beNat, beBytes, List.reverse_reverse, leNat_leBytes_of_lt fits]

theorem beBytes_beNat (bytes : List UInt8) : beBytes bytes.length (beNat bytes) = bytes := by
  have back := leBytes_leNat bytes.reverse
  rw [List.length_reverse] at back
  rw [beBytes, beNat, back, List.reverse_reverse]

theorem beNat_lt (bytes : List UInt8) : beNat bytes < 256 ^ bytes.length := by
  have digits : ∀ digit ∈ bytes.reverse.map UInt8.toNat, digit < 256 := by
    intro digit member
    obtain ⟨b, -, rfl⟩ := List.mem_map.mp member
    exact b.toNat_lt
  have small := Nat.ofDigits_lt_base_pow_length (by decide : 1 < 256) digits
  simpa [beNat, leNat] using small

end Surch.Lib
