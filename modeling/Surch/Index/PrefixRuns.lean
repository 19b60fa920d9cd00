import Surch.Index.PrefixScan

/-! Through a run: the prefixes written for a field are closed under shorter prefixes, and the terms of
every segment are where the settings put them. -/
namespace Surch.Index
open Surch.Lib Surch.Postings

namespace DocumentIndex

variable {Digest : Type} {settings : Settings Digest} {index : DocumentIndex Digest}
  {field start : String}

section SidePostings

end SidePostings

section Analysis

end Analysis

section Steps

variable {minChars : Nat}

end Steps

section Placement

def Placed (settings : Settings Digest) (index : DocumentIndex Digest) : Prop :=
  ∀ segment ∈ index.segments,
    segment.terms.diskEnabled = settings.postingsDiskEnabled ∨ segment.terms = emptyTerms

theorem Placed.resident (placed : index.Placed settings) (inMemory : settings.postingsDiskEnabled = false) :
    index.Resident field start := by
  intro segment member backed
  rw [TermDictionary.diskBacked] at backed
  rcases placed segment member with same | empty
  · rw [same, inMemory] at backed
    cases backed
  · rw [empty] at backed
    cases backed

end Placement

end DocumentIndex

end Surch.Index
