import Surch.Index.Quantization

/-! `surch_search::small_float`, the reference the indexer mirrors, and what the byte of a
field length promises in both. -/
namespace Surch.Search
open Surch.Index

def numFreeValues : Nat := 24

def longToInt4 (value : Nat) : Nat :=
  let numBits := Nat.size value
  if numBits < 4 then value
  else
    let shift := numBits - 4
    let mantissa := (value >>> shift) &&& 0x07
    let exponent := shift + 1
    mantissa ||| (exponent <<< 3)

def int4ToLong (encoded : Nat) : Nat :=
  let bits := encoded &&& 0x07
  let exp := encoded >>> 3
  if exp = 0 then bits else (bits ||| 0x08) <<< (exp - 1)

def intToByte4 (value : Nat) : Nat :=
  if value < numFreeValues then value
  else
    let offset := value - numFreeValues
    let encoded := longToInt4 offset
    (numFreeValues + encoded) % 2 ^ 8

def byte4ToInt (byte : Nat) : Nat :=
  if byte < numFreeValues then byte
  else
    let decoded := numFreeValues + int4ToLong (byte - numFreeValues)
    min decoded (2 ^ 32 - 1)

/-- The length norm keeps its promises for exactly the lengths whose byte does not wrap around,
the recorded lengths are found exactly when no document's last one wraps around to zero, and both
copies of the functions agree. -/
theorem length_norm (value : Nat) (fits : value < 2 ^ 32) (calls : List LengthCall) :
    (Quantizes Index.intToByte4 Index.byte4ToInt value ↔ value < wrapsFrom) ∧
      (FindsRecorded calls ↔ ∀ docId, ∀ docLen ∈ lastRecorded calls docId,
        ¬ (wrapsFrom ≤ docLen ∧ docLen < zeroUpTo)) ∧
      longToInt4 value = Index.longToInt4 value ∧ int4ToLong value = Index.int4ToLong value ∧
      intToByte4 value = Index.intToByte4 value ∧ byte4ToInt value = Index.byte4ToInt value :=
  ⟨quantizes_iff fits, findsRecorded_iff calls, rfl, rfl, rfl, rfl⟩

theorem length_norm_forty :
    Quantizes Index.intToByte4 Index.byte4ToInt 40 ∧
      ¬ FindsRecorded [{ docId := 0, docLen := wrapsFrom, normsEnabled := true }] := by
  obtain ⟨quantizes, finds, -⟩ := length_norm 40 (by decide)
    [{ docId := 0, docLen := wrapsFrom, normsEnabled := true }]
  refine ⟨quantizes.mpr (by decide), ?_⟩
  rw [finds]
  intro found
  exact found 0 wrapsFrom rfl ⟨le_rfl, Nat.lt_add_of_pos_right (Nat.two_pow_pos 28)⟩

/- The largest length is stored below the length eight, and a recorded length goes missing. -/
theorem not_length_norm :
    ¬ (∀ value < 2 ^ 32, Quantizes Index.intToByte4 Index.byte4ToInt value) ∧
      ¬ ∀ calls, FindsRecorded calls := by
  constructor
  · intro quantizes
    have ordered := (quantizes (2 ^ 32 - 1) (by decide)).monotone 8 (by decide)
    have wrapped := @intToByte4_wrapped (2 ^ 32 - 1) (by decide) (by decide)
    have eight : Index.intToByte4 8 = 8 := rfl
    rw [wrapped, eight] at ordered
    exact absurd ordered (by decide)
  · intro finds
    have missing := (findsRecorded_iff _).mp
      (finds [{ docId := 0, docLen := wrapsFrom, normsEnabled := true }]) 0 wrapsFrom rfl
    exact missing ⟨le_rfl, Nat.lt_add_of_pos_right (Nat.two_pow_pos 28)⟩

end Surch.Search
