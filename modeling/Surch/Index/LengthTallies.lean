import Surch.Index.LengthBounds

/-! `FieldLengthStats` as a tally of documents: the counts, the bytes and the minimum are those of the
documents that were recorded, through recording and merging. -/
namespace Surch.Index
open Surch.Lib Surch.Postings

namespace FieldLengthStats

def storedLen (tokens : Nat) : Nat := byte4ToInt (encodedLen tokens)

def leastOf (lengths : List Nat) : Nat := lengths.min?.getD 0

theorem leastOf_pos {lengths : List Nat} (positive : ∀ length ∈ lengths, 0 < length)
    (nonempty : lengths ≠ []) : 0 < leastOf lengths := by
  unfold leastOf
  cases least : lengths.min? with
  | none => exact absurd (List.min?_eq_none_iff.mp least) nonempty
  | some length => exact positive length (List.min?_eq_some_iff.mp least).1

theorem joinMin_leastOf {lengths more : List Nat} (positive : ∀ length ∈ lengths, 0 < length)
    (positive' : ∀ length ∈ more, 0 < length) :
    joinMin (leastOf lengths) (if 0 < leastOf more then some (leastOf more) else none) =
      leastOf (lengths ++ more) := by
  cases least : lengths.min? with
  | none =>
    rw [List.min?_eq_none_iff.mp least, List.nil_append]
    by_cases nothing : more = []
    · rw [nothing]
      rfl
    · rw [if_pos (leastOf_pos positive' nothing)]
      rfl
  | some low =>
    obtain ⟨inside, below⟩ := List.min?_eq_some_iff.mp least
    have here : leastOf lengths = low := by rw [leastOf, least, Option.getD_some]
    have above := positive low inside
    cases least' : more.min? with
    | none =>
      rw [List.min?_eq_none_iff.mp least', List.append_nil]
      rfl
    | some low' =>
      obtain ⟨inside', below'⟩ := List.min?_eq_some_iff.mp least'
      have there : leastOf more = low' := by rw [leastOf, least', Option.getD_some]
      have together : (lengths ++ more).min? = some (min low low') := by
        refine List.min?_eq_some_iff.mpr ⟨?_, ?_⟩
        · rcases min_choice low low' with same | same
          · rw [same]
            exact List.mem_append_left _ inside
          · rw [same]
            exact List.mem_append_right _ inside'
        · intro length member
          rcases List.mem_append.mp member with member | member
          · exact (min_le_left _ _).trans (below length member)
          · exact (min_le_right _ _).trans (below' length member)
      have above' := positive' low' inside'
      rw [here, there, if_pos above', joinMin, if_neg (by omega), leastOf, together, Option.getD_some]

/- What the statistics of a field keep: `lengths` has the documents with their numbers of tokens. The
bytes may be padded up to `size`. -/
structure Tallies (stats : FieldLengthStats) (normsEnabled : Bool) (size : Nat)
    (lengths : List (Nat × Nat)) : Prop where
  positive : ∀ entry ∈ lengths, entry.2 ≠ 0
  docCount : stats.docCount = lengths.length
  totalTerms : normsEnabled = true → stats.totalTerms = (lengths.map Prod.snd).sum
  present : normsEnabled = true →
    ∀ entry ∈ lengths, stats.docLenDense.getD entry.1 0 = encodedLen entry.2
  absent : ∀ docId, (∀ entry ∈ lengths, entry.1 ≠ docId) → stats.docLenDense.getD docId 0 = 0
  extent : ∀ bound, size ≤ bound → (∀ entry ∈ lengths, entry.1 < bound) →
    stats.docLenDense.length ≤ bound
  least : normsEnabled = true → (∀ entry ∈ lengths, encodedLen entry.2 ≠ 0) →
    stats.minDocLen = leastOf (lengths.map fun entry => storedLen entry.2)

theorem default_tallies (normsEnabled : Bool) (size : Nat) :
    default.Tallies normsEnabled size [] where
  positive _ member := nomatch member
  docCount := rfl
  totalTerms _ := rfl
  present _ _ member := nomatch member
  absent _ _ := rfl
  extent _ _ _ := Nat.zero_le _
  least _ _ := rfl

theorem storedLen_pos {lengths : List (Nat × Nat)}
    (encodes : ∀ entry ∈ lengths, encodedLen entry.2 ≠ 0) :
    ∀ length ∈ lengths.map fun entry => storedLen entry.2, 0 < length := by
  intro length member
  obtain ⟨entry, inside, rfl⟩ := List.mem_map.mp member
  exact byte4ToInt_pos (encodes entry inside)

namespace Tallies

variable {stats : FieldLengthStats} {normsEnabled : Bool} {size : Nat} {lengths : List (Nat × Nat)}

theorem mono (tallies : stats.Tallies normsEnabled size lengths) {larger : Nat} (wider : size ≤ larger) :
    stats.Tallies normsEnabled larger lengths :=
  { tallies with extent := fun bound above => tallies.extent bound (wider.trans above) }

theorem recordDocLen (tallies : stats.Tallies normsEnabled size lengths) {docId docLen : Nat}
    (fresh : ∀ entry ∈ lengths, entry.1 ≠ docId) (nonzero : docLen ≠ 0) :
    (stats.recordDocLen docId docLen normsEnabled).Tallies normsEnabled size
      (lengths ++ [(docId, docLen)]) := by
  have positive : ∀ entry ∈ lengths ++ [(docId, docLen)], entry.2 ≠ 0 := by
    intro entry member
    rcases List.mem_append.mp member with member | member
    · exact tallies.positive entry member
    · rw [List.mem_singleton.mp member]
      exact nonzero
  have previous := tallies.absent docId fresh
  cases normsEnabled with
  | false =>
    rw [FieldLengthStats.recordDocLen, if_neg nonzero, if_pos (by decide)]
    refine ⟨positive, ?_, by simp, by simp, ?_, ?_, by simp⟩
    · rw [List.length_append, List.length_singleton, tallies.docCount]
    · intro other missing
      exact tallies.absent other fun entry member => missing entry (List.mem_append_left _ member)
    · intro bound above inside
      exact tallies.extent bound above fun entry member => inside entry (List.mem_append_left _ member)
  | true =>
    rw [FieldLengthStats.recordDocLen, if_neg nonzero, if_neg (by decide)]
    simp only [previous, if_true]
    refine ⟨positive, ?_, fun _ => ?_, fun _ => ?_, ?_, ?_, fun _ encodes => ?_⟩
    · rw [List.length_append, List.length_singleton, tallies.docCount]
    · rw [List.map_append, List.sum_append, tallies.totalTerms rfl]
      simp
    · intro entry member
      rw [getD_writeAt]
      rcases List.mem_append.mp member with member | member
      · rw [if_neg (fresh entry member)]
        exact tallies.present rfl entry member
      · rw [List.mem_singleton.mp member, if_pos rfl]
    · intro other missing
      rw [getD_writeAt, if_neg]
      · exact tallies.absent other fun entry member => missing entry (List.mem_append_left _ member)
      · exact (missing (docId, docLen) (List.mem_append_right _ (List.mem_singleton_self _))).symm
    · intro bound above inside
      have before := tallies.extent bound above fun entry member =>
        inside entry (List.mem_append_left _ member)
      have here := inside (docId, docLen) (List.mem_append_right _ (List.mem_singleton_self _))
      rw [length_writeAt]
      exact max_le before here
    · have old : ∀ entry ∈ lengths, encodedLen entry.2 ≠ 0 := fun entry member =>
        encodes entry (List.mem_append_left _ member)
      have new : 0 < storedLen docLen := byte4ToInt_pos
        (encodes (docId, docLen) (List.mem_append_right _ (List.mem_singleton_self _)))
      have joined := @joinMin_leastOf (lengths.map fun entry => storedLen entry.2) [storedLen docLen]
        (storedLen_pos old) fun length member => by rwa [List.mem_singleton.mp member]
      have single : leastOf [storedLen docLen] = storedLen docLen := rfl
      rw [List.map_append, List.map_singleton, ← joined, single, if_pos new, joinMin,
        tallies.least rfl old]
      generalize leastOf (lengths.map fun entry => storedLen entry.2) = low
      have stored : byte4ToInt (encodedLen docLen) = storedLen docLen := rfl
      rw [stored]
      by_cases none : low = 0
      · simp only [none, true_or, if_true]
      · by_cases lower : storedLen docLen < low
        · rw [if_pos (.inr lower), if_neg none]
          exact (min_eq_right lower.le).symm
        · rw [if_neg (by omega), if_neg (by omega), if_neg none]
          exact (min_eq_left (not_lt.mp lower)).symm

end Tallies

end FieldLengthStats

end Surch.Index
