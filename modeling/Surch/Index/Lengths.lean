import Mathlib.Data.Nat.Size
import Surch.Lib.Column
import Surch.Lib.SortedMap

/-! `FieldLengthStats`: the lengths of a field's documents, one quantized byte each, with exact
totals beside them. -/
namespace Surch.Index
open Surch.Lib

/- `NUM_FREE_VALUES`: lengths below this are kept as they are. -/
def numFreeValues : Nat := 24

def longToInt4 (value : Nat) : Nat :=
  let numBits := Nat.size value
  if numBits < 4 then value
  else
    let shift := numBits - 4
    ((value >>> shift) &&& 0x07) ||| ((shift + 1) <<< 3)

def int4ToLong (encoded : Nat) : Nat :=
  let bits := encoded &&& 0x07
  let exp := encoded >>> 3
  if exp = 0 then bits else (bits ||| 0x08) <<< (exp - 1)

def intToByte4 (value : Nat) : Nat :=
  if value < numFreeValues then value
  else (numFreeValues + longToInt4 (value - numFreeValues)) % 2 ^ 8

def byte4ToInt (byte : Nat) : Nat :=
  if byte < numFreeValues then byte
  else min (numFreeValues + int4ToLong (byte - numFreeValues)) (2 ^ 32 - 1)

structure FieldLengthStats where
  docCount : Nat
  totalTerms : Nat
  docLenDense : List Nat
  minDocLen : Nat
deriving DecidableEq, Repr

namespace FieldLengthStats

def default : FieldLengthStats := ⟨0, 0, [], 0⟩

def encodedLen (docLen : Nat) : Nat := intToByte4 (min docLen (2 ^ 32 - 1))

def scanMin (docLenDense : List Nat) : Nat :=
  (((docLenDense.filter (0 < ·)).map byte4ToInt).min?).getD 0

def recordDocLen (stats : FieldLengthStats) (docId docLen : Nat) (normsEnabled : Bool) :
    FieldLengthStats :=
  if docLen = 0 then stats
  else if !normsEnabled then { stats with docCount := stats.docCount + 1 }
  else
    let encoded := encodedLen docLen
    let previousByte := stats.docLenDense.getD docId 0
    let previousReconstructed := if previousByte = 0 then 0 else byte4ToInt previousByte
    let docLenDense := writeAt 0 stats.docLenDense docId encoded
    let reconstructed := byte4ToInt encoded
    { docCount := if previousByte = 0 then stats.docCount + 1 else stats.docCount
      totalTerms :=
        (if previousByte = 0 then stats.totalTerms
          else stats.totalTerms - previousReconstructed) + docLen
      docLenDense
      minDocLen :=
        if stats.minDocLen = 0 ∨ reconstructed < stats.minDocLen then reconstructed
        else if previousReconstructed = stats.minDocLen ∧ previousReconstructed < reconstructed then
          scanMin docLenDense
        else stats.minDocLen }

/- `min_doc_len()`: zero stands for none. -/
def minDocLen? (stats : FieldLengthStats) : Option Nat :=
  if 0 < stats.minDocLen then some stats.minDocLen else none

def docLen (stats : FieldLengthStats) (docId : Nat) : Option Nat :=
  (stats.docLenDense[docId]?.filter (0 < ·)).map byte4ToInt

end FieldLengthStats

def decodeDocLenByte (byte : Nat) : Nat := if byte = 0 then 0 else byte4ToInt byte

def joinMin (minDocLen : Nat) : Option Nat → Nat
  | none => minDocLen
  | some segmentMin => if minDocLen = 0 then segmentMin else min minDocLen segmentMin

end Surch.Index
