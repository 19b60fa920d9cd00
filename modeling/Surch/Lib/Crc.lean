import Mathlib.Data.List.Forall2
import Mathlib.Logic.Function.Iterate
import Mathlib.Tactic.Ring

/-! Cyclic redundancy checks, least significant bit first: the register shifts down, and a bit that falls
out adds the polynomial. Two texts that differ inside as many bits as the register has never leave it
alike. -/
namespace Surch.Lib.Crc

section Round

variable {w : Nat} (poly : BitVec w)

def round (x : BitVec w) : BitVec w := (x >>> 1) ^^^ (if x.getLsbD 0 then poly else 0#w)

theorem round_xor (x y : BitVec w) : round poly (x ^^^ y) = round poly x ^^^ round poly y := by
  have bits : (if (x ^^^ y).getLsbD 0 then poly else 0#w) =
      (if x.getLsbD 0 then poly else 0#w) ^^^ (if y.getLsbD 0 then poly else 0#w) := by
    rw [BitVec.getLsbD_xor]
    cases x.getLsbD 0 <;> cases y.getLsbD 0 <;> simp
  rw [round, round, round, bits, BitVec.ushiftRight_xor_distrib]
  ac_rfl

variable {poly}

theorem round_shiftLeft {x : BitVec w} (small : 2 * x.toNat < 2 ^ w) : round poly (x <<< 1) = x := by
  have wide : (x <<< 1).toNat = 2 * x.toNat := by
    rw [BitVec.toNat_shiftLeft, Nat.shiftLeft_eq, pow_one, Nat.mul_comm, Nat.mod_eq_of_lt small]
  have low : (x <<< 1).getLsbD 0 = false := by
    rw [BitVec.getLsbD, wide, Nat.testBit_zero]
    simp
  rw [round, low]
  apply BitVec.eq_of_toNat_eq
  simp [BitVec.toNat_ushiftRight, Nat.shiftRight_eq_div_pow, wide]

theorem eq_zero_of_round (top : 2 ^ w ≤ 2 * poly.toNat) {x : BitVec w} (gone : round poly x = 0#w) :
    x = 0#w := by
  rw [round, BitVec.xor_eq_zero_iff] at gone
  have half := congrArg BitVec.toNat gone
  rw [BitVec.toNat_ushiftRight, Nat.shiftRight_eq_div_pow, pow_one] at half
  have bound := x.isLt
  split at half
  · omega
  · rename_i low
    rw [BitVec.getLsbD, Nat.testBit_zero] at low
    apply BitVec.eq_of_toNat_eq
    simp only [BitVec.toNat_ofNat, Nat.zero_mod, decide_eq_true_eq] at half low ⊢
    omega

theorem iterate_round_xor (n : Nat) (x y : BitVec w) :
    (round poly)^[n] (x ^^^ y) = (round poly)^[n] x ^^^ (round poly)^[n] y := by
  induction n generalizing x y with
  | zero => rfl
  | succ n ih => rw [Function.iterate_succ_apply, round_xor, ih, ← Function.iterate_succ_apply,
      ← Function.iterate_succ_apply]

theorem iterate_round_shiftLeft {n : Nat} {x : BitVec w} (small : x.toNat * 2 ^ n < 2 ^ w) :
    (round poly)^[n] (x <<< n) = x := by
  induction n with
  | zero => simp
  | succ n ih =>
    have double : x.toNat * 2 ^ n * 2 < 2 ^ w := by
      rw [Nat.mul_assoc, ← Nat.pow_succ]
      exact small
    have shifted : (x <<< n).toNat = x.toNat * 2 ^ n := by
      rw [BitVec.toNat_shiftLeft, Nat.shiftLeft_eq, Nat.mod_eq_of_lt (by omega)]
    rw [Function.iterate_succ_apply, BitVec.shiftLeft_add, round_shiftLeft (by omega)]
    exact ih (by omega)

theorem eq_zero_of_iterate_round (top : 2 ^ w ≤ 2 * poly.toNat) {n : Nat} {x : BitVec w}
    (gone : (round poly)^[n] x = 0#w) : x = 0#w := by
  induction n generalizing x with
  | zero => exact gone
  | succ n ih => exact eq_zero_of_round top (ih (by rwa [← Function.iterate_succ_apply]))

theorem eq_shiftLeft_of_iterate_round (top : 2 ^ w ≤ 2 * poly.toNat) {n : Nat} {x y : BitVec w}
    (small : y.toNat * 2 ^ n < 2 ^ w) (down : (round poly)^[n] x = y) : x = y <<< n := by
  have same : (round poly)^[n] (x ^^^ (y <<< n)) = 0#w := by
    rw [iterate_round_xor, iterate_round_shiftLeft small, down, BitVec.xor_self]
  exact BitVec.xor_eq_zero_iff.mp (eq_zero_of_iterate_round top same)

end Round

section Feed

variable {w : Nat} (poly : BitVec w) (k : Nat)

/- A symbol of `k` bits is added to the register, which then makes `k` rounds. -/
def feed (state symbol : BitVec w) : BitVec w := (round poly)^[k] (state ^^^ symbol)

variable {poly k}

theorem feed_injective (top : 2 ^ w ≤ 2 * poly.toNat) {a b symbol : BitVec w}
    (same : feed poly k a symbol = feed poly k b symbol) : a = b := by
  have gone : (round poly)^[k] (a ^^^ b) = 0#w := by
    have split : a ^^^ b = (a ^^^ symbol) ^^^ (b ^^^ symbol) := by
      rw [BitVec.xor_comm b, ← BitVec.xor_assoc, BitVec.xor_assoc a, BitVec.xor_self, BitVec.xor_zero]
    rw [split, iterate_round_xor]
    exact BitVec.xor_eq_zero_iff.mpr same
  exact BitVec.xor_eq_zero_iff.mp (eq_zero_of_iterate_round top gone)

theorem foldl_feed_injective (top : 2 ^ w ≤ 2 * poly.toNat) {symbols : List (BitVec w)} {a b : BitVec w}
    (same : symbols.foldl (feed poly k) a = symbols.foldl (feed poly k) b) : a = b := by
  induction symbols generalizing a b with
  | nil => exact same
  | cons symbol symbols ih => exact feed_injective top (ih same)

/-- Registers that are alike at the end differed at the start by no more than the symbols hold, and not
at all only if these were the same. -/
theorem foldl_feed_difference (top : 2 ^ w ≤ 2 * poly.toNat) {xs ys : List (BitVec w)}
    (symbols : List.Forall₂ (fun x y => x.toNat < 2 ^ k ∧ y.toNat < 2 ^ k) xs ys)
    (short : k * xs.length ≤ w) {a b : BitVec w}
    (same : xs.foldl (feed poly k) a = ys.foldl (feed poly k) b) :
    (a ^^^ b).toNat < 2 ^ (k * xs.length) ∧ (a = b → xs = ys) := by
  induction symbols generalizing a b with
  | nil =>
    obtain rfl : a = b := same
    simp
  | @cons x y xs ys small _ ih =>
    rw [List.length_cons, Nat.mul_succ] at short ⊢
    obtain ⟨less, equal⟩ := ih (by omega) same
    have room : (feed poly k a x ^^^ feed poly k b y).toNat * 2 ^ k < 2 ^ w := by
      calc (feed poly k a x ^^^ feed poly k b y).toNat * 2 ^ k
          < 2 ^ (k * xs.length) * 2 ^ k := Nat.mul_lt_mul_of_pos_right less (Nat.two_pow_pos k)
        _ = 2 ^ (k * xs.length + k) := (Nat.pow_add ..).symm
        _ ≤ 2 ^ w := Nat.pow_le_pow_right (by decide) short
    have up := eq_shiftLeft_of_iterate_round top room (x := (a ^^^ x) ^^^ (b ^^^ y))
      (iterate_round_xor _ _ _)
    have split : a ^^^ b = (x ^^^ y) ^^^ ((feed poly k a x ^^^ feed poly k b y) <<< k) := by
      rw [← up]
      have cancel : ∀ p q r s : BitVec w, p ^^^ q = (r ^^^ s) ^^^ ((p ^^^ r) ^^^ (q ^^^ s)) := by
        intro p q r s
        have shuffled : (r ^^^ s) ^^^ ((p ^^^ r) ^^^ (q ^^^ s)) =
            (p ^^^ q) ^^^ ((r ^^^ r) ^^^ (s ^^^ s)) := by ac_rfl
        rw [shuffled, BitVec.xor_self, BitVec.xor_self, BitVec.xor_self, BitVec.xor_zero]
      exact cancel a b x y
    have low : (x ^^^ y).toNat < 2 ^ k := by
      rw [BitVec.toNat_xor]
      exact Nat.xor_lt_two_pow small.1 small.2
    have high : ((feed poly k a x ^^^ feed poly k b y) <<< k).toNat =
        (feed poly k a x ^^^ feed poly k b y).toNat * 2 ^ k := by
      rw [BitVec.toNat_shiftLeft, Nat.shiftLeft_eq, Nat.mod_eq_of_lt room]
    constructor
    · rw [split, BitVec.toNat_xor, high]
      refine Nat.xor_lt_two_pow ?_ ?_
      · exact low.trans_le (Nat.pow_le_pow_right (by decide) (by omega))
      · rw [Nat.pow_add]
        exact Nat.mul_lt_mul_of_pos_right less (Nat.two_pow_pos k)
    · rintro rfl
      rw [BitVec.xor_self] at split
      have parts := congrArg BitVec.toNat (BitVec.xor_eq_zero_iff.mp split.symm)
      rw [high] at parts
      have nothing : (feed poly k a x ^^^ feed poly k a y).toNat = 0 := by
        by_contra some_bits
        have large := Nat.le_mul_of_pos_left (2 ^ k) (Nat.pos_of_ne_zero some_bits)
        omega
      rw [nothing, Nat.zero_mul] at parts
      have firsts : x = y :=
        BitVec.xor_eq_zero_iff.mp (BitVec.eq_of_toNat_eq (by rw [parts]; simp))
      have registers : feed poly k a x = feed poly k a y :=
        BitVec.xor_eq_zero_iff.mp (BitVec.eq_of_toNat_eq (by rw [nothing]; simp))
      rw [firsts, equal registers]

/-- Texts that differ in a window no wider than the register leave it different. -/
theorem foldl_feed_window (top : 2 ^ w ≤ 2 * poly.toNat) {front back xs ys : List (BitVec w)}
    (symbols : List.Forall₂ (fun x y => x.toNat < 2 ^ k ∧ y.toNat < 2 ^ k) xs ys)
    (short : k * xs.length ≤ w) {start : BitVec w}
    (same : (front ++ xs ++ back).foldl (feed poly k) start =
      (front ++ ys ++ back).foldl (feed poly k) start) : xs = ys := by
  simp only [List.foldl_append] at same
  exact (foldl_feed_difference top symbols short (foldl_feed_injective top same)).2 rfl

end Feed

end Surch.Lib.Crc
