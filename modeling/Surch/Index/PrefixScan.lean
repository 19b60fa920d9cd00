import Surch.Lib.PrefixRange
import Surch.Index.Subfields
import Surch.Index.StoredPostings

/-! The terms of a field that start with some bytes, as a range of its term index, and the documents
that the flat channels have of them: all of them in memory, none on disk. -/
namespace Surch.Index

end Surch.Index

namespace Surch.Postings
open Surch.Lib Surch.Index

/- The byte one above, below 0xFF. -/
def nextByte (byte : UInt8) : Option UInt8 := if byte < 0xFF then some (byte + 1) else none

def prefixUpperBound (start : List UInt8) : Option (List UInt8) := upperBound nextByte start

def FieldPostings.numberedDocIds (field : FieldPostings) (idx : Nat) : Option (List Nat) := do
  let start ← field.offsets[idx]?
  let ending ← field.offsets[idx + 1]?
  slice field.docIdsFlat start ending

def FieldPostings.collectPrefixDocIds (field : FieldPostings) (start : List UInt8) : Finset Nat :=
  let inRange := field.fst.entries.filter fun entry =>
    decide (start ≤ utf8 entry.1) &&
      (prefixUpperBound start).all fun upper => decide (utf8 entry.1 < upper)
  (inRange.flatMap fun entry => (field.numberedDocIds entry.2).getD []).toFinset

def TermDictionary.prefixDocIds {Digest : Type} (dictionary : TermDictionary Digest)
    (field start : String) : Finset Nat :=
  ((dictionary.fields.get? field).map fun fieldPostings =>
    fieldPostings.collectPrefixDocIds (utf8 start)).getD ∅

variable {Digest : Type} {hash : List UInt8 → Digest} {inverted : Inverted}
  {dictionary : TermDictionary Digest} {field start : String}

end Surch.Postings

namespace Surch.Index
open Surch.Lib Surch.Postings

variable {Digest : Type} {settings : Settings Digest} {index : DocumentIndex Digest}
  {groups : List (List Addition)} {field start : String}

def DocumentIndex.termPrefixDocIds (index : DocumentIndex Digest) (field start : String) : Finset Nat :=
  index.segments.foldr (fun segment found => segment.terms.prefixDocIds field start ∪ found) ∅

def DocumentIndex.Resident (index : DocumentIndex Digest) (field start : String) : Prop :=
  ∀ segment ∈ index.segments, segment.terms.diskBacked = true → ∀ term,
    utf8 start <+: utf8 term → segment.termPostings field term = none

namespace Stores

end Stores

end Surch.Index
