import Surch.Lib.BitPack
import Surch.Lib.Reader

/-! LEB128 varints of `postings_block.rs`. A reader's `position` into its input is
represented by the unread suffix, which the reader monad threads along. -/
namespace Surch.Codec
open Surch.Lib

inductive PostingsBlockError where
  | unexpectedEof
  | varintOverflow
  | notMonotonic
  | malformedBlock
deriving DecidableEq, Repr

abbrev BlockReader := Reader PostingsBlockError UInt8

/-- `write_varint_u32`: the bytes appended for one value. -/
def writeVarintU32 (value : Nat) : List UInt8 :=
  if value ≥ 0x80 then
    (UInt8.ofNat (value &&& 0x7f) ||| 0x80) :: writeVarintU32 (value >>> 7)
  else [UInt8.ofNat value]
termination_by value
decreasing_by rw [Nat.shiftRight_eq_div_pow]; omega

/-- The loop of `read_varint_u32`, from a partial result and its bit position. -/
def readVarintLoop :
    List UInt8 → (result shift : Nat) → Except PostingsBlockError (Nat × List UInt8)
  | [], _, _ => .error .unexpectedEof
  | byte :: rest, result, shift =>
    let chunk := (byte &&& 0x7f).toNat
    if shift = 28 ∧ byte &&& 0x80 ≠ 0 then .error .varintOverflow
    else if shift = 28 ∧ chunk > 0x0f then .error .varintOverflow
    else if shift ≥ 32 then .error .varintOverflow
    else
      let result := result ||| chunk <<< shift
      if byte &&& 0x80 = 0 then .ok (result, rest)
      else readVarintLoop rest result (shift + 7)

def readVarintU32 : BlockReader Nat := fun input => readVarintLoop input 0 0

theorem writeVarintU32_small {value : Nat} (small : value < 128) :
    writeVarintU32 value = [UInt8.ofNat value] := by
  rw [writeVarintU32, if_neg (by omega)]

theorem writeVarintU32_large {value : Nat} (large : 128 ≤ value) :
    writeVarintU32 value =
      (UInt8.ofNat (value % 128) ||| 0x80) :: writeVarintU32 (value / 128) := by
  rw [writeVarintU32, if_pos large]
  congr 2
  · exact congrArg UInt8.ofNat (Nat.and_two_pow_sub_one_eq_mod value 7)
  · exact Nat.shiftRight_eq_div_pow value 7

theorem writeVarintU32_length_pos (value : Nat) : 1 ≤ (writeVarintU32 value).length := by
  rw [writeVarintU32]
  split <;> simp

theorem readVarintLoop_write (value : Nat) :
    ∀ (result shift : Nat) (rest : List UInt8), result < 2 ^ shift → shift % 7 = 0 →
      value * 2 ^ shift < 2 ^ 32 → shift ≤ 28 →
      readVarintLoop (writeVarintU32 value ++ rest) result shift =
        .ok (result + value * 2 ^ shift, rest) := by
  induction value using Nat.strongRecOn with
  | ind value ih =>
    intro result shift rest low aligned fits bound
    have top : shift = 28 → value < 16 := by
      intro last
      subst last
      omega
    by_cases large : 128 ≤ value
    · have short : shift ≠ 28 := fun last => by have := top last; omega
      have byte := continuation_byte_toNat (value % 128) (Nat.mod_lt _ (by decide))
      have more : ¬ (UInt8.ofNat (value % 128) ||| 0x80) &&& 0x80 = 0 := by
        rw [continuation_clear_iff, byte]; omega
      have weight : 2 ^ (shift + 7) = 128 * 2 ^ shift := by rw [Nat.pow_add]; ring
      have grows : result + value % 128 * 2 ^ shift < 2 ^ (shift + 7) := by
        have digit : value % 128 + 1 ≤ 128 := Nat.mod_lt _ (by decide)
        have := Nat.mul_le_mul_right (2 ^ shift) digit
        rw [weight, Nat.add_mul] at *
        omega
      have smaller : value / 128 * 2 ^ (shift + 7) < 2 ^ 32 := by
        have := Nat.mul_le_mul_right (2 ^ shift) (Nat.div_mul_le_self value 128)
        rw [weight, ← Nat.mul_assoc]
        omega
      have room : shift + 7 ≤ 28 := by omega
      rw [writeVarintU32_large large]
      simp only [List.cons_append, readVarintLoop, low_seven_bits, byte, short, false_and,
        if_false, if_neg (show ¬ shift ≥ 32 by omega), if_neg more, Nat.add_mod_right,
        or_shiftLeft_of_lt low, Nat.mod_mod]
      rw [ih (value / 128) (by omega) _ _ rest grows (by omega) smaller room]
      have whole := Nat.mod_add_div value 128
      rw [weight, ← Nat.mul_assoc, Nat.add_assoc, ← Nat.add_mul, Nat.mul_comm (value / 128), whole]
    · have small : value < 128 := by omega
      have byte : (UInt8.ofNat value).toNat = value := by rw [UInt8.toNat_ofNat']; omega
      have stop : UInt8.ofNat value &&& 0x80 = 0 := by rw [continuation_clear_iff, byte]; omega
      have digit : ¬ (shift = 28 ∧ value > 0x0f) := by
        rintro ⟨last, big⟩
        have := top last
        omega
      rw [writeVarintU32_small small]
      simp only [List.cons_append, List.nil_append, readVarintLoop, low_seven_bits, byte, stop,
        ne_eq, not_true_eq_false, and_false, if_false, if_neg digit,
        if_neg (show ¬ shift ≥ 32 by omega), if_true, or_shiftLeft_of_lt low,
        Nat.mod_eq_of_lt small]

theorem reads_varint (value : Nat) (fits : value < 2 ^ 32) :
    Reads readVarintU32 (writeVarintU32 value) value := by
  intro rest
  have read := readVarintLoop_write value 0 0 rest (by decide) (by decide) (by omega) (by decide)
  simpa [readVarintU32] using read

end Surch.Codec
