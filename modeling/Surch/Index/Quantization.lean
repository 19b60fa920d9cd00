import Mathlib.Data.List.Induction
import Surch.Index.Lengths
import Surch.Lib.MiniFloat

/-! The one-byte length norm as a small float with three bits behind the leading one, and what
is left of it where the byte wraps around. -/
namespace Surch.Index
open Surch.Lib

theorem longToInt4_eq_pack (value : Nat) : longToInt4 value = MiniFloat.pack 3 value := by
  unfold longToInt4
  by_cases small : Nat.size value < 4
  · have fits := Nat.size_le.mp (Nat.le_of_lt small)
    simp only [if_pos small]
    exact (MiniFloat.pack_of_lt 3 fits).symm
  · obtain ⟨high, low⟩ := MiniFloat.significand_bounds 3 value
    have scale : Nat.size value - 4 = MiniFloat.scale 3 value := rfl
    have leading : 2 ^ 3 ≤ value / 2 ^ MiniFloat.scale 3 value := by
      rcases low with unscaled | low
      · have large : 2 ^ 3 ≤ value := Nat.lt_size.mp (by omega)
        simpa [unscaled] using large
      · exact low
    have mask : value >>> MiniFloat.scale 3 value &&& 7 = value / 2 ^ MiniFloat.scale 3 value % 2 ^ 3 := by
      rw [Nat.shiftRight_eq_div_pow]
      exact Nat.and_two_pow_sub_one_eq_mod _ 3
    have bits : value / 2 ^ MiniFloat.scale 3 value % 2 ^ 3 < 2 ^ 3 := Nat.mod_lt _ (by decide)
    simp only [if_neg small, scale, mask]
    rw [Nat.or_comm, ← Nat.shiftLeft_add_eq_or_of_lt bits, Nat.shiftLeft_eq, MiniFloat.pack]
    omega

theorem int4ToLong_eq_unpack (encoded : Nat) : int4ToLong encoded = MiniFloat.unpack 3 encoded := by
  have mask : encoded &&& 0x07 = encoded % 2 ^ 3 := Nat.and_two_pow_sub_one_eq_mod encoded 3
  have shift : encoded >>> 3 = encoded / 2 ^ 3 := Nat.shiftRight_eq_div_pow encoded 3
  have joined : encoded % 2 ^ 3 ||| 0x08 = encoded % 2 ^ 3 + 2 ^ 3 := by
    have apart := @Nat.two_pow_add_eq_or_of_lt 3 _ (Nat.mod_lt encoded (by decide : 0 < 2 ^ 3)) 1
    rw [Nat.or_comm, Nat.add_comm]
    exact apart.symm
  simp only [int4ToLong, mask, shift, joined, MiniFloat.unpack, Nat.shiftLeft_eq]
  by_cases free : encoded < 2 ^ 3
  · simp only [if_pos free, if_pos (Nat.div_eq_of_lt free)]
    exact Nat.mod_eq_of_lt free
  · have exponent : encoded / 2 ^ 3 ≠ 0 := by omega
    simp only [if_neg free, if_neg exponent]

/- The values from here on encode to a byte that has wrapped around. -/
def wrapsFrom : Nat := 2 ^ 31 + 24

def zeroUpTo : Nat := wrapsFrom + 2 ^ 28

theorem pack_le_of_lt {offset : Nat} (small : offset < 2 ^ 31) : MiniFloat.pack 3 offset ≤ 231 := by
  by_contra large
  have reached := (MiniFloat.gc_unpack_pack 3 232 offset).mpr (Nat.not_le.mp large)
  have decoded : MiniFloat.unpack 3 232 = 2 ^ 31 := by decide
  omega

/-- A byte lies at or below that of a length exactly when it decodes to that length or less. -/
theorem byte4ToInt_le_iff {value : Nat} (small : value < wrapsFrom) (byte : Nat) :
    byte4ToInt byte ≤ value ↔ byte ≤ intToByte4 value := by
  simp only [wrapsFrom] at small
  have below : value - 24 < 2 ^ 31 := by omega
  have code := pack_le_of_lt below
  have offset := MiniFloat.gc_unpack_pack 3 (byte - 24) (value - 24)
  have whole : (24 + MiniFloat.pack 3 (value - 24)) % 2 ^ 8 = 24 + MiniFloat.pack 3 (value - 24) :=
    Nat.mod_eq_of_lt (by omega)
  simp only [byte4ToInt, intToByte4, longToInt4_eq_pack, int4ToLong_eq_unpack, numFreeValues, whole]
  by_cases freeByte : byte < 24 <;> by_cases freeValue : value < 24 <;>
    simp only [freeByte, freeValue, if_true, if_false] <;> omega

/- The byte of a length, whatever the length: below `wrapsFrom` it is exact, from there on it is
one of the bytes that stand for the lengths zero to seven. -/
theorem intToByte4_wrapped {value : Nat} (large : wrapsFrom ≤ value) (fits : value < 2 ^ 32) :
    intToByte4 value = (value - wrapsFrom) / 2 ^ 28 := by
  simp only [wrapsFrom] at large ⊢
  have scale : MiniFloat.scale 3 (value - 24) = 28 := by
    have low : 31 < Nat.size (value - 24) := Nat.lt_size.mpr (by omega)
    have high : Nat.size (value - 24) ≤ 32 := Nat.size_le.mpr (by omega)
    simp only [MiniFloat.scale]
    omega
  have long : ¬ value < 24 := by omega
  simp only [intToByte4, numFreeValues, if_neg long, longToInt4_eq_pack, MiniFloat.pack, scale]
  omega

/-- What the norm promises of one length. -/
structure Quantizes (encode decode : Nat → Nat) (value : Nat) : Prop where
  monotone : ∀ smaller ≤ value, encode smaller ≤ encode value
  absent : encode value = 0 → value = 0
  below : decode (encode value) ≤ value
  lossless : value < 40 → decode (encode value) = value
  largest : ∀ byte < 2 ^ 8, decode byte ≤ value → decode byte ≤ decode (encode value)

theorem byte4ToInt_small : ∀ byte < 40, byte4ToInt byte = byte := by decide

theorem byte4ToInt_lt : ∀ byte < 2 ^ 8, byte4ToInt byte < wrapsFrom := by decide +kernel

theorem intToByte4_lt (value : Nat) : intToByte4 value < 2 ^ 8 := by
  unfold intToByte4 numFreeValues
  split
  · omega
  · exact Nat.mod_lt _ (by decide)

theorem byte4ToInt_mono {byte byte' : Nat} (ordered : byte ≤ byte') (inside : byte' < 2 ^ 8) :
    byte4ToInt byte ≤ byte4ToInt byte' := by
  have bound := byte4ToInt_lt byte' inside
  have itself := (byte4ToInt_le_iff bound byte').mp le_rfl
  exact (byte4ToInt_le_iff bound byte).mpr (ordered.trans itself)

/-- The norm keeps its promises exactly below the lengths whose byte wraps around. -/
theorem quantizes_iff {value : Nat} (fits : value < 2 ^ 32) :
    Quantizes intToByte4 byte4ToInt value ↔ value < wrapsFrom := by
  constructor
  · intro quantizes
    by_contra large
    have wrapped := intToByte4_wrapped (Nat.not_lt.mp large) fits
    have eight := quantizes.monotone 8 (by simp only [wrapsFrom] at large; omega)
    have byte : intToByte4 8 = 8 := rfl
    simp only [wrapsFrom] at wrapped
    omega
  · intro small
    have below := (byte4ToInt_le_iff small _).mpr le_rfl
    have largest : ∀ byte < 2 ^ 8, byte4ToInt byte ≤ value →
        byte4ToInt byte ≤ byte4ToInt (intToByte4 value) := by
      intro byte _ reached
      exact byte4ToInt_mono ((byte4ToInt_le_iff small byte).mp reached) (intToByte4_lt value)
    refine ⟨?_, ?_, below, ?_, largest⟩
    · intro smaller ordered
      have small' : smaller < wrapsFrom := ordered.trans_lt small
      exact (byte4ToInt_le_iff small _).mp (((byte4ToInt_le_iff small' _).mpr le_rfl).trans ordered)
    · intro zero
      by_contra nonzero
      have one := (byte4ToInt_le_iff small 1).mp (Nat.one_le_iff_ne_zero.mpr nonzero)
      omega
    · intro free
      have itself := byte4ToInt_small value free
      have reached := largest value (by omega) itself.le
      omega

theorem intToByte4_eq_zero_iff {value : Nat} (fits : value < 2 ^ 32) :
    intToByte4 value = 0 ↔ value = 0 ∨ (wrapsFrom ≤ value ∧ value < zeroUpTo) := by
  by_cases small : value < wrapsFrom
  · have absent := ((quantizes_iff fits).mpr small).absent
    constructor
    · intro zero
      exact .inl (absent zero)
    · rintro (rfl | ⟨large, -⟩)
      · rfl
      · omega
  · have large := Nat.not_lt.mp small
    have positive : 0 < wrapsFrom := Nat.succ_pos _
    have nonzero : value ≠ 0 := by omega
    have quotient : (value - wrapsFrom) / 2 ^ 28 = 0 ↔ value - wrapsFrom < 2 ^ 28 :=
      Nat.div_eq_zero_iff_lt (Nat.two_pow_pos 28)
    have reach : value - wrapsFrom < 2 ^ 28 ↔ value < zeroUpTo := Nat.sub_lt_iff_lt_add' large
    simp only [intToByte4_wrapped large fits, quotient, reach, nonzero, large, true_and, false_or]

structure LengthCall where
  docId : Nat
  docLen : Nat
  normsEnabled : Bool
deriving DecidableEq, Repr

def LengthCall.Records (call : LengthCall) (docId : Nat) : Prop :=
  call.docId = docId ∧ call.docLen ≠ 0 ∧ call.normsEnabled = true

instance (call : LengthCall) (docId : Nat) : Decidable (call.Records docId) :=
  inferInstanceAs (Decidable (_ ∧ _ ∧ _))

namespace FieldLengthStats

def recordAll (calls : List LengthCall) : FieldLengthStats :=
  calls.foldl (fun stats call => stats.recordDocLen call.docId call.docLen call.normsEnabled)
    .default

end FieldLengthStats

def lastRecorded (calls : List LengthCall) (docId : Nat) : Option Nat :=
  ((calls.filter fun call => call.Records docId).getLast?).map LengthCall.docLen

theorem lastRecorded_append (calls : List LengthCall) (call : LengthCall) (docId : Nat) :
    lastRecorded (calls ++ [call]) docId =
      if call.Records docId then some call.docLen else lastRecorded calls docId := by
  unfold lastRecorded
  by_cases records : call.Records docId <;> simp [records]

theorem recordDocLen_byte (stats : FieldLengthStats) (call : LengthCall) (docId : Nat) :
    (stats.recordDocLen call.docId call.docLen call.normsEnabled).docLenDense.getD docId 0 =
      if call.Records docId then FieldLengthStats.encodedLen call.docLen
      else stats.docLenDense.getD docId 0 := by
  unfold FieldLengthStats.recordDocLen LengthCall.Records
  by_cases empty : call.docLen = 0
  · simp [empty]
  by_cases enabled : call.normsEnabled = true
  · simp only [if_neg empty, enabled, Bool.not_true, Bool.false_eq_true, if_false, getD_writeAt]
    by_cases same : docId = call.docId
    · simp [same, empty]
    · simp [same, Ne.symm same]
  · simp [empty, enabled]

/-- After any calls a document's byte is that of the length recorded last for it. -/
theorem recordAll_byte (calls : List LengthCall) (docId : Nat) :
    (FieldLengthStats.recordAll calls).docLenDense.getD docId 0 =
      ((lastRecorded calls docId).map FieldLengthStats.encodedLen).getD 0 := by
  induction calls using List.reverseRecOn with
  | nil => rfl
  | append_singleton calls call ih =>
    have last : FieldLengthStats.recordAll (calls ++ [call]) =
        (FieldLengthStats.recordAll calls).recordDocLen call.docId call.docLen call.normsEnabled := by
      simp [FieldLengthStats.recordAll]
    rw [last, recordDocLen_byte, lastRecorded_append, ih]
    split <;> rfl

theorem docLen_isSome (stats : FieldLengthStats) (docId : Nat) :
    (stats.docLen docId).isSome = true ↔ stats.docLenDense.getD docId 0 ≠ 0 := by
  simp only [FieldLengthStats.docLen, Option.isSome_map, List.getD_eq_getElem?_getD]
  cases stats.docLenDense[docId]? with
  | none => simp
  | some byte => by_cases absent : byte = 0 <;> simp [Option.filter, absent]; omega

/- What readers rely on: a length is found for exactly the documents that have one recorded. -/
def FindsRecorded (calls : List LengthCall) : Prop :=
  ∀ docId, ((FieldLengthStats.recordAll calls).docLen docId).isSome = true ↔
    (lastRecorded calls docId).isSome = true

theorem encodedLen_eq_zero_iff {docLen : Nat} (nonzero : docLen ≠ 0) :
    FieldLengthStats.encodedLen docLen = 0 ↔ wrapsFrom ≤ docLen ∧ docLen < zeroUpTo := by
  have fits : min docLen (2 ^ 32 - 1) < 2 ^ 32 := by omega
  have positive : min docLen (2 ^ 32 - 1) ≠ 0 := by omega
  have low : wrapsFrom < 2 ^ 32 - 1 := by decide
  have high : zeroUpTo < 2 ^ 32 - 1 := by decide
  simp only [FieldLengthStats.encodedLen, intToByte4_eq_zero_iff fits, positive, false_or]
  generalize wrapsFrom = lower at *
  generalize zeroUpTo = upper at *
  omega

/-- Recorded lengths are found exactly when no document's last one has the byte zero. -/
theorem findsRecorded_iff (calls : List LengthCall) :
    FindsRecorded calls ↔
      ∀ docId, ∀ docLen ∈ lastRecorded calls docId,
        ¬ (wrapsFrom ≤ docLen ∧ docLen < zeroUpTo) := by
  unfold FindsRecorded
  apply forall_congr'
  intro docId
  rw [docLen_isSome, recordAll_byte]
  cases recorded : lastRecorded calls docId with
  | none => simp
  | some docLen =>
    have nonzero : docLen ≠ 0 := by
      unfold lastRecorded at recorded
      obtain ⟨call, last, rfl⟩ := Option.map_eq_some_iff.mp recorded
      have member := List.mem_of_getLast? last
      exact (of_decide_eq_true (List.mem_filter.mp member).2).2.1
    simp [encodedLen_eq_zero_iff nonzero]

end Surch.Index
