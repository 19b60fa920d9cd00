import Mathlib.Data.Nat.Size
import Mathlib.Order.GaloisConnection.Defs
import Mathlib.Tactic.Ring

/-! A small unsigned float: a number is rounded down to its leading `width + 1` bits, and the
bits behind the leading one are stored beside the shift. Numbers of no more bits are stored as
they are. Decoding and encoding form a Galois connection, which is all an order-preserving
quantization needs. -/
namespace Surch.Lib.MiniFloat

variable (width : Nat)

def scale (n : Nat) : Nat := Nat.size n - (width + 1)

def pack (n : Nat) : Nat := n / 2 ^ scale width n + 2 ^ width * scale width n

def unpack (code : Nat) : Nat :=
  if code < 2 ^ width then code
  else (code % 2 ^ width + 2 ^ width) * 2 ^ (code / 2 ^ width - 1)

/-- The significand has at most `width + 1` bits, and exactly these where anything is shifted. -/
theorem significand_bounds (n : Nat) :
    n / 2 ^ scale width n < 2 * 2 ^ width ∧
      (scale width n = 0 ∨ 2 ^ width ≤ n / 2 ^ scale width n) := by
  have positive := Nat.two_pow_pos (scale width n)
  have below : n < 2 ^ (width + 1 + scale width n) := by
    apply Nat.size_le.mp
    simp only [scale]
    omega
  constructor
  · apply (Nat.div_lt_iff_lt_mul positive).mpr
    simpa [Nat.pow_add, Nat.pow_succ, Nat.mul_comm] using below
  · by_cases fits : scale width n = 0
    · exact .inl fits
    · right
      apply (Nat.le_div_iff_mul_le positive).mpr
      have above : 2 ^ (width + scale width n) ≤ n := by
        apply Nat.lt_size.mp
        simp only [scale] at fits ⊢
        omega
      simpa [Nat.pow_add] using above

theorem pack_of_lt {n : Nat} (small : n < 2 ^ (width + 1)) : pack width n = n := by
  have unscaled : scale width n = 0 := by
    have size := Nat.size_le.mpr small
    simp only [scale]
    omega
  simp [pack, unscaled]

/-- A code lies at or below a number's code exactly when it decodes to that number or less. -/
theorem gc_unpack_pack : GaloisConnection (unpack width) (pack width) := by
  intro code n
  obtain ⟨high, low⟩ := significand_bounds width n
  have half := Nat.two_pow_pos width
  have pow_pos := Nat.two_pow_pos (scale width n)
  by_cases free : code < 2 ^ width
  · simp only [unpack, if_pos free]
    rcases low with unscaled | low
    · simp [pack, unscaled]
    · have bound := (Nat.le_div_iff_mul_le pow_pos).mp low
      have grows := Nat.le_mul_of_pos_right (2 ^ width) pow_pos
      simp only [pack]
      omega
  · obtain ⟨exp, rest, small, rfl⟩ : ∃ exp rest, rest < 2 ^ width ∧
        code = rest + 2 ^ width + 2 ^ width * exp := by
      refine ⟨code / 2 ^ width - 1, code % 2 ^ width, Nat.mod_lt _ half, ?_⟩
      have quotient : 1 ≤ code / 2 ^ width := (Nat.one_le_div_iff half).mpr (Nat.not_lt.mp free)
      have whole := Nat.div_add_mod code (2 ^ width)
      obtain ⟨more, split⟩ : ∃ more, code / 2 ^ width = more + 1 := ⟨_, (Nat.sub_add_cancel quotient).symm⟩
      rw [split, Nat.mul_add] at whole
      rw [split]
      simp only [Nat.add_sub_cancel]
      omega
    have decoded : unpack width (rest + 2 ^ width + 2 ^ width * exp) =
        (rest + 2 ^ width) * 2 ^ exp := by
      have whole : rest + 2 ^ width + 2 ^ width * exp = rest + 2 ^ width * (exp + 1) := by
        rw [Nat.mul_succ]
        omega
      have quotient : (rest + 2 ^ width * (exp + 1)) / 2 ^ width = exp + 1 := by
        rw [Nat.add_mul_div_left _ _ half, Nat.div_eq_of_lt small, Nat.zero_add]
      have remainder : (rest + 2 ^ width * (exp + 1)) % 2 ^ width = rest := by
        rw [Nat.add_mul_mod_self_left, Nat.mod_eq_of_lt small]
      rw [whole] at free ⊢
      simp only [unpack, if_neg free, quotient, remainder, Nat.add_sub_cancel]
    rw [decoded, pack]
    rcases Nat.lt_trichotomy exp (scale width n) with below | same | above
    · -- a smaller shift: both sides hold
      have low := low.resolve_left (Nat.ne_zero_of_lt below)
      have steps := Nat.mul_le_mul_left (2 ^ width) below
      have lifted : (rest + 2 ^ width) * 2 ^ exp ≤ n := by
        calc (rest + 2 ^ width) * 2 ^ exp
            ≤ (2 ^ width + 2 ^ width) * 2 ^ exp := Nat.mul_le_mul_right _ (by omega)
          _ = 2 ^ width * 2 ^ (exp + 1) := by rw [Nat.pow_succ, ← Nat.two_mul]; ring
          _ ≤ 2 ^ width * 2 ^ scale width n :=
              Nat.mul_le_mul_left _ (Nat.pow_le_pow_right (by decide) below)
          _ ≤ n := (Nat.le_div_iff_mul_le pow_pos).mp low
      simp only [lifted, true_iff]
      rw [Nat.mul_succ] at steps
      omega
    · subst same
      rw [← Nat.le_div_iff_mul_le pow_pos]
      omega
    · -- a larger shift: neither side holds
      have steps := Nat.mul_le_mul_left (2 ^ width) above
      have lifted : n < (rest + 2 ^ width) * 2 ^ exp := by
        calc n < 2 * 2 ^ width * 2 ^ scale width n := (Nat.div_lt_iff_lt_mul pow_pos).mp high
          _ = 2 ^ width * 2 ^ (scale width n + 1) := by rw [Nat.pow_succ]; ring
          _ ≤ 2 ^ width * 2 ^ exp := Nat.mul_le_mul_left _ (Nat.pow_le_pow_right (by decide) above)
          _ ≤ (rest + 2 ^ width) * 2 ^ exp := Nat.mul_le_mul_right _ (by omega)
      simp only [Nat.not_le.mpr lifted, false_iff, Nat.not_le]
      rw [Nat.mul_succ] at steps
      omega

end Surch.Lib.MiniFloat
