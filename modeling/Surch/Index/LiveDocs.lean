import Mathlib.Data.Finset.Sort
import Mathlib.Data.Nat.Bitwise
import Surch.Lib.Column
import Surch.Postings.Roaring

/-! `LiveDocsBitset`: the live documents of a segment, one bit each in 64-bit words. -/
namespace Surch.Index
open Surch.Lib Surch.Postings

structure LiveDocsBitset where
  bits : List Nat
  count : Nat
  words : ∀ word ∈ bits, word < 2 ^ 64
deriving DecidableEq, Repr

namespace LiveDocsBitset

def default : LiveDocsBitset := ⟨[], 0, fun _ none => absurd none List.not_mem_nil⟩

def contains (live : LiveDocsBitset) (docId : Nat) : Bool :=
  (live.bits.getD (docId / 64) 0).testBit (docId % 64)

theorem getD_lt (live : LiveDocsBitset) (wordIdx : Nat) : live.bits.getD wordIdx 0 < 2 ^ 64 := by
  rcases getD_mem 0 live.bits wordIdx with empty | member
  · rw [empty]
    decide
  · exact live.words _ member

theorem words_writeAt (live : LiveDocsBitset) (docId : Nat) :
    ∀ word ∈ writeAt 0 live.bits (docId / 64)
      (live.bits.getD (docId / 64) 0 ||| 2 ^ (docId % 64)), word < 2 ^ 64 := by
  intro word member
  rcases mem_writeAt member with before | rfl | rfl
  · exact live.words word before
  · decide
  · exact Nat.or_lt_two_pow (live.getD_lt _)
      (Nat.pow_lt_pow_right (by decide) (Nat.mod_lt _ (by decide)))

def insert (live : LiveDocsBitset) (docId : Nat) : LiveDocsBitset :=
  if live.contains docId then live
  else
    { bits := writeAt 0 live.bits (docId / 64)
        (live.bits.getD (docId / 64) 0 ||| 2 ^ (docId % 64))
      count := live.count + 1
      words := live.words_writeAt docId }

/- Each word is emptied from its lowest bit on. -/
def iter (live : LiveDocsBitset) : List Nat :=
  live.bits.zipIdx.flatMap fun (word, wordIdx) => (setBits word).map (wordIdx * 64 + ·)

@[simp] theorem contains_default (docId : Nat) : default.contains docId = false := by
  simp [contains, default]

@[simp] theorem contains_insert (live : LiveDocsBitset) (docId x : Nat) :
    (live.insert docId).contains x = (x == docId || live.contains x) := by
  unfold insert
  split
  · rename_i present
    by_cases same : x = docId
    · subst same
      simp [present]
    · simp [same]
  · rw [contains, getD_writeAt, contains]
    by_cases word : x / 64 = docId / 64
    · rw [if_pos word, Nat.testBit_or, Nat.testBit_two_pow, word]
      by_cases bit : docId % 64 = x % 64
      · have same : x = docId := by omega
        simp [same]
      · have distinct : x ≠ docId := by
          rintro rfl
          exact bit rfl
        simp [bit, distinct]
    · have distinct : x ≠ docId := by
        rintro rfl
        exact word rfl
      simp [word, distinct]

theorem mem_iter (live : LiveDocsBitset) (x : Nat) : x ∈ live.iter ↔ live.contains x = true := by
  simp only [iter, List.mem_flatMap, List.mem_map, Prod.exists, List.mem_zipIdx_iff_getElem?]
  rw [contains]
  constructor
  · rintro ⟨word, wordIdx, found, bit, set, rfl⟩
    have fits := live.words word (List.mem_of_getElem? found)
    rw [mem_setBits fits] at set
    have small := bit_lt fits set
    have at_word : (wordIdx * 64 + bit) / 64 = wordIdx := by omega
    have at_bit : (wordIdx * 64 + bit) % 64 = bit := by omega
    rw [at_word, at_bit, List.getD_eq_getElem?_getD, found]
    exact set
  · intro set
    have inside : x / 64 < live.bits.length := by
      refine @lt_length_of_getD_ne Nat 0 _ _ ?_
      intro empty
      rw [empty, Nat.zero_testBit] at set
      cases set
    rw [List.getD_eq_getElem?_getD, List.getElem?_eq_getElem inside] at set
    exact ⟨live.bits[x / 64], x / 64, List.getElem?_eq_getElem inside, x % 64,
      (mem_setBits (live.words _ (List.getElem_mem inside)) _).mpr set, by omega⟩

theorem iter_ascending (live : LiveDocsBitset) : live.iter.Pairwise (· < ·) := by
  rw [iter, List.pairwise_flatMap]
  constructor
  · rintro ⟨word, wordIdx⟩ member
    rw [List.pairwise_map]
    refine (setBits_ascending (live.words word (List.fst_mem_of_mem_zipIdx member))).imp ?_
    intro a b below
    omega
  · have numbered : live.bits.zipIdx.Pairwise fun first second =>
        first.1 < 2 ^ 64 ∧ first.2 < second.2 := by
      have places : live.bits.zipIdx.Pairwise fun first second => first.2 < second.2 := by
        rw [← List.pairwise_map, List.zipIdx_map_snd]
        exact List.pairwise_lt_range'
      exact places.imp_of_mem fun inside _ below =>
        ⟨live.words _ (List.fst_mem_of_mem_zipIdx inside), below⟩
    refine numbered.imp ?_
    rintro ⟨first, i⟩ ⟨second, j⟩ ⟨fits, below⟩ x left y right
    obtain ⟨a, inside, rfl⟩ := List.mem_map.mp left
    obtain ⟨b, _, rfl⟩ := List.mem_map.mp right
    have small := bit_lt fits ((mem_setBits fits a).mp inside)
    dsimp only at below ⊢
    omega

def Holds (live : LiveDocsBitset) (docs : Finset Nat) : Prop :=
  (∀ x, live.contains x = true ↔ x ∈ docs) ∧ live.count = docs.card

theorem Holds.insert {live : LiveDocsBitset} {docs : Finset Nat} (holds : live.Holds docs)
    (docId : Nat) : (live.insert docId).Holds (Insert.insert docId docs) := by
  refine ⟨fun x => by simp [holds.1], ?_⟩
  rw [LiveDocsBitset.insert]
  split
  · rename_i present
    rw [Finset.insert_eq_of_mem ((holds.1 docId).mp present), holds.2]
  · rename_i absent
    rw [Finset.card_insert_of_notMem fun inside => absent ((holds.1 docId).mpr inside), holds.2]

theorem Holds.insertAll (docIds : List Nat) {live : LiveDocsBitset} {docs : Finset Nat}
    (holds : live.Holds docs) :
    (docIds.foldl LiveDocsBitset.insert live).Holds (docs ∪ docIds.toFinset) := by
  induction docIds generalizing live docs with
  | nil => simpa using holds
  | cons docId rest ih =>
    rw [List.toFinset_cons, Finset.union_insert, ← Finset.insert_union]
    exact ih (holds.insert docId)

/-- Whatever is inserted, again or not and in whichever order, is counted once and iterated in order. -/
theorem iter_inserted (docIds : List Nat) :
    (docIds.foldl insert default).iter = docIds.toFinset.sort (· ≤ ·) ∧
      (docIds.foldl insert default).count = docIds.toFinset.card := by
  have holds := Holds.insertAll docIds (⟨by simp, rfl⟩ : default.Holds ∅)
  rw [Finset.empty_union] at holds
  refine ⟨(iter_ascending _).eq_of_mem_iff (Finset.sortedLT_sort _).pairwise fun x => ?_, holds.2⟩
  rw [mem_iter, holds.1, Finset.mem_sort]

end LiveDocsBitset

end Surch.Index
