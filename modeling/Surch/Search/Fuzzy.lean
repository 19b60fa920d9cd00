import Mathlib.Algebra.Group.Nat.Defs
import Surch.Lib.EditDistance
import Surch.Lib.Window

/-! `surch_search::fuzzy`: the bounded edit distance of two terms and the expansion of a fuzzy query
over the terms of an index. -/
namespace Surch.Search
open Surch.Lib

def maxSupportedEdits : Nat := 2

inductive Fuzziness where
  | edits (maxEdits : Nat)
  | auto (low high : Nat)
deriving DecidableEq, Repr

structure FuzzyQueryConfig where
  fuzziness : Fuzziness
  prefixLength : Nat
  maxExpansions : Nat
  transpositions : Bool
deriving DecidableEq, Repr

structure FuzzyTermMatch where
  term : String
  edits : Nat
deriving DecidableEq, Repr

inductive FuzzyError where
  | maxEditsTooLarge (maxEdits : Nat)
  | invalidFuzziness
  | invalidAutoBounds (low high : Nat)
  | maxExpansionsZero
deriving DecidableEq, Repr

def validateMaxEdits (maxEdits : Nat) : Except FuzzyError Unit :=
  if maxEdits > maxSupportedEdits then .error (.maxEditsTooLarge maxEdits) else .ok ()

def validateFuzziness : Fuzziness → Except FuzzyError Unit
  | .edits maxEdits => validateMaxEdits maxEdits
  | .auto low high => if low > high then .error (.invalidAutoBounds low high) else .ok ()

def editsForTermLen (fuzziness : Fuzziness) (len : Nat) : Except FuzzyError Nat := do
  validateFuzziness fuzziness
  match fuzziness with
  | .edits maxEdits => return maxEdits
  | .auto low high => return if len < low then 0 else if len < high then 1 else 2

section Table

variable (left right : List Char) (transpositions : Bool)

/- One cell from the rows above it and the cells on its left. An index out of bounds panics. -/
def damerauLevenshteinCell (rows : List (List Nat)) (row : List Nat) (i j : Nat) : Option Nat := do
  let leftChar ← left[i - 1]?
  let rightChar ← right[j - 1]?
  let substitutionCost := if leftChar ≠ rightChar then 1 else 0
  let above ← rows[i - 1]?
  let deletion := (← above[j]?) + 1
  let insertion := (← row[j - 1]?) + 1
  let substitution := (← above[j - 1]?) + substitutionCost
  let distance := min (min deletion insertion) substitution
  if transpositions = true ∧ i > 1 ∧ j > 1 ∧ left[i - 1]? = right[j - 2]? ∧
      left[i - 2]? = right[j - 1]? then
    let twoAbove ← rows[i - 2]?
    return min distance ((← twoAbove[j - 2]?) + 1)
  else return distance

def damerauLevenshteinRow (rows : List (List Nat)) (i : Nat) : Option (List Nat) :=
  (List.range' 1 right.length).foldlM
    (fun row j => (damerauLevenshteinCell left right transpositions rows row i j).map (row ++ [·]))
    [i]

def damerauLevenshteinChars : Option Nat := do
  let rows ← (List.range' 1 left.length).foldlM
    (fun rows i => (damerauLevenshteinRow left right transpositions rows i).map (rows ++ [·]))
    [List.range (right.length + 1)]
  let row ← rows[left.length]?
  row[right.length]?

end Table

def boundedDamerauLevenshtein (left right : String) (maxEdits : Nat) (transpositions : Bool) :
    Option (Except FuzzyError (Option Nat)) :=
  if maxEdits > maxSupportedEdits then some (.error (.maxEditsTooLarge maxEdits))
  else if left = right then some (.ok (some 0))
  else
    let leftChars := left.toList
    let rightChars := right.toList
    if max leftChars.length rightChars.length - min leftChars.length rightChars.length > maxEdits then
      some (.ok none)
    else do
      let distance ← damerauLevenshteinChars leftChars rightChars transpositions
      return .ok (if distance ≤ maxEdits then some (distance % 2 ^ 8) else none)

def hasExactCharPrefixOf : Nat → List Char → List Char → Bool
  | 0, _, _ => true
  | n + 1, queryChar :: query, termChar :: term =>
    queryChar == termChar && hasExactCharPrefixOf n query term
  | _ + 1, _, _ => false

def hasExactCharPrefix (query term : String) (prefixLength : Nat) : Bool :=
  hasExactCharPrefixOf prefixLength query.toList term.toList

def fuzzyMatchOrdering (left right : FuzzyTermMatch) : Ordering :=
  (compare left.edits right.edits).then (compare left.term right.term)

def fuzzyMatches (query : String) (maxEdits : Nat) (config : FuzzyQueryConfig) :
    List String → List FuzzyTermMatch → Option (Except FuzzyError (List FuzzyTermMatch))
  | [], found => some (.ok found)
  | term :: rest, found =>
    if hasExactCharPrefix query term config.prefixLength then
      match boundedDamerauLevenshtein query term maxEdits config.transpositions with
      | none => none
      | some (.error error) => some (.error error)
      | some (.ok none) => fuzzyMatches query maxEdits config rest found
      | some (.ok (some edits)) => fuzzyMatches query maxEdits config rest (found ++ [{ term, edits }])
    else fuzzyMatches query maxEdits config rest found

def expandFuzzyTerms (query : String) (terms : List String) (config : FuzzyQueryConfig) :
    Option (Except FuzzyError (List FuzzyTermMatch)) :=
  if config.maxExpansions = 0 then some (.error .maxExpansionsZero)
  else
    match editsForTermLen config.fuzziness query.length with
    | .error error => some (.error error)
    | .ok maxEdits =>
      (fuzzyMatches query maxEdits config terms []).map fun found =>
        found.map fun found =>
          (found.mergeSort fun left right => (fuzzyMatchOrdering left right).isLE).take
            config.maxExpansions

section Distance

variable (left right : List Char) (transpositions : Bool)

def beginDistance (i j : Nat) : Nat :=
  EditDistance.distance transpositions (left.take i).reverse (right.take j).reverse

theorem foldlM_grow {β : Type} (value : Nat → β) (next : List β → Nat → Option β) (n : Nat)
    (step : ∀ i < n, next ((List.range (i + 1)).map value) (i + 1) = some (value (i + 1))) :
    (List.range' 1 n).foldlM (fun values i => (next values i).map (values ++ [·])) [value 0] =
      some ((List.range (n + 1)).map value) := by
  induction n with
  | zero => rfl
  | succ n ih =>
    have before := ih fun i small => step i (by omega)
    have last := step n (Nat.lt_succ_self n)
    rw [List.range'_concat, List.foldlM_append, before, List.range_succ (n := n + 1), List.map_append]
    simp [Nat.add_comm 1 n, last]

theorem beginDistance_zero_left {j : Nat} (inside : j ≤ right.length) :
    beginDistance left right transpositions 0 j = j := by
  simp [beginDistance, EditDistance.distance_nil_left, inside]

theorem beginDistance_zero_right {i : Nat} (inside : i ≤ left.length) :
    beginDistance left right transpositions i 0 = i := by
  simp [beginDistance, EditDistance.distance_nil_right, inside]

theorem head?_reverse_take {α : Type} (letters : List α) {i : Nat} (inside : i ≤ letters.length) :
    (letters.take i).reverse.head? = if 0 < i then letters[i - 1]? else none := by
  rw [List.head?_reverse, List.getLast?_take]
  by_cases none : i = 0
  · simp [none]
  · have there : i - 1 < letters.length := by omega
    simp [none, Nat.pos_of_ne_zero none, there]

theorem tail_reverse_take {α : Type} (letters : List α) {i : Nat} (inside : i ≤ letters.length) :
    (letters.take i).reverse.tail = (letters.take (i - 1)).reverse := by
  rw [List.tail_reverse, List.dropLast_eq_take, List.length_take, Nat.min_eq_left inside,
    List.take_take]
  congr 2
  omega

/-- One cell is the distance of two longer beginnings when the cells before it are. -/
theorem beginDistance_succ {i j : Nat} (inLeft : i < left.length) (inRight : j < right.length) :
    beginDistance left right transpositions (i + 1) (j + 1) =
      let edited := min (min (beginDistance left right transpositions i (j + 1) + 1)
        (beginDistance left right transpositions (i + 1) j + 1))
        (beginDistance left right transpositions i j + if left[i] = right[j] then 0 else 1)
      if transpositions = true ∧ i + 1 > 1 ∧ j + 1 > 1 ∧ left[i]? = right[j - 1]? ∧
          left[i - 1]? = right[j]? then
        min edited (beginDistance left right transpositions (i - 1) (j - 1) + 1)
      else edited := by
  have leftEnd : (left.take (i + 1)).reverse = left[i] :: (left.take i).reverse := by
    rw [List.take_succ_eq_append_getElem inLeft, List.reverse_append]
    rfl
  have rightEnd : (right.take (j + 1)).reverse = right[j] :: (right.take j).reverse := by
    rw [List.take_succ_eq_append_getElem inRight, List.reverse_append]
    rfl
  have crossed : (transpositions = true ∧ (left.take i).reverse.head? = some right[j] ∧
      (right.take j).reverse.head? = some left[i]) ↔
      transpositions = true ∧ i + 1 > 1 ∧ j + 1 > 1 ∧ left[i]? = right[j - 1]? ∧
        left[i - 1]? = right[j]? := by
    rw [head?_reverse_take left inLeft.le, head?_reverse_take right inRight.le,
      List.getElem?_eq_getElem inLeft, List.getElem?_eq_getElem inRight]
    by_cases low : 0 < i <;> by_cases left_low : 0 < j <;> simp [low, left_low]
    intro _
    rw [and_comm, eq_comm]
  simp only [beginDistance, leftEnd, rightEnd]
  rw [EditDistance.distance]
  simp only [crossed, tail_reverse_take left inLeft.le, tail_reverse_take right inRight.le]

def beginRow (i : Nat) : List Nat :=
  (List.range (right.length + 1)).map (beginDistance left right transpositions i)

def beginRows (n : Nat) : List (List Nat) := (List.range n).map (beginRow left right transpositions)

theorem damerauLevenshteinCell_eq {i j : Nat} (inLeft : i < left.length) (inRight : j < right.length) :
    damerauLevenshteinCell left right transpositions (beginRows left right transpositions (i + 1))
      ((List.range (j + 1)).map (beginDistance left right transpositions (i + 1))) (i + 1) (j + 1) =
      some (beginDistance left right transpositions (i + 1) (j + 1)) := by
  have rows : ∀ k ≤ i, (beginRows left right transpositions (i + 1))[k]? =
      some (beginRow left right transpositions k) := by
    intro k inside
    simp [beginRows, Nat.lt_succ_of_le inside]
  have cells : ∀ k, ∀ l ≤ right.length, (beginRow left right transpositions k)[l]? =
      some (beginDistance left right transpositions k l) := by
    intro k l inside
    simp [beginRow, Nat.lt_succ_of_le inside]
  have before : ((List.range (j + 1)).map (beginDistance left right transpositions (i + 1)))[j]? =
      some (beginDistance left right transpositions (i + 1) j) := by simp
  rw [beginDistance_succ left right transpositions inLeft inRight]
  simp only [damerauLevenshteinCell, Nat.add_sub_cancel, List.getElem?_eq_getElem inLeft,
    List.getElem?_eq_getElem inRight, rows i le_rfl, cells i (j + 1) inRight, before,
    cells i j inRight.le, Option.bind_eq_bind, Option.bind_some, ne_eq, ite_not,
    show i + 1 - 2 = i - 1 from rfl, show j + 1 - 2 = j - 1 from rfl]
  split
  · have twoAbove := rows (i - 1) (Nat.sub_le i 1)
    have crossed := cells (i - 1) (j - 1) ((Nat.sub_le j 1).trans inRight.le)
    rw [twoAbove, Option.bind_some, crossed, Option.bind_some]
    rfl
  · rfl

theorem damerauLevenshteinRow_eq {i : Nat} (inLeft : i < left.length) :
    damerauLevenshteinRow left right transpositions (beginRows left right transpositions (i + 1))
      (i + 1) = some (beginRow left right transpositions (i + 1)) := by
  have grown := foldlM_grow (beginDistance left right transpositions (i + 1))
    (fun row j => damerauLevenshteinCell left right transpositions
      (beginRows left right transpositions (i + 1)) row (i + 1) j) right.length
    fun j inRight => damerauLevenshteinCell_eq left right transpositions inLeft inRight
  rw [beginDistance_zero_right left right transpositions inLeft] at grown
  exact grown

theorem damerauLevenshteinChars_eq :
    damerauLevenshteinChars left right transpositions =
      some (EditDistance.distance transpositions left right) := by
  have first : List.range (right.length + 1) = beginRow left right transpositions 0 := by
    refine (List.map_id _).symm.trans (List.map_congr_left fun j member => ?_)
    have inside := List.mem_range.mp member
    exact (beginDistance_zero_left left right transpositions (Nat.le_of_lt_succ inside)).symm
  have grown := foldlM_grow (beginRow left right transpositions)
    (fun rows i => damerauLevenshteinRow left right transpositions rows i) left.length
    fun i inLeft => damerauLevenshteinRow_eq left right transpositions inLeft
  have last : beginDistance left right transpositions left.length right.length =
      EditDistance.distance transpositions left right := by
    simp [beginDistance, EditDistance.distance_reverse]
  simp only [damerauLevenshteinChars, first, grown]
  simp [beginRow, last]

end Distance

section Bounded

variable {left right : String} {maxEdits : Nat} {transpositions : Bool}

def termDistance (transpositions : Bool) (left right : String) : Nat :=
  EditDistance.distance transpositions left.toList right.toList

theorem boundedDamerauLevenshtein_eq (accepted : maxEdits ≤ maxSupportedEdits) :
    boundedDamerauLevenshtein left right maxEdits transpositions =
      some (.ok (if termDistance transpositions left right ≤ maxEdits then
        some (termDistance transpositions left right) else none)) := by
  unfold boundedDamerauLevenshtein
  rw [if_neg (Nat.not_lt.mpr accepted)]
  by_cases same : left = right
  · simp [same, termDistance, EditDistance.distance_self]
  obtain ⟨above, below⟩ := (EditDistance.aligns_distance transpositions left.toList
    right.toList).length_le
  simp only [if_neg same, damerauLevenshteinChars_eq]
  unfold maxSupportedEdits at accepted
  unfold termDistance
  split
  · rename_i far
    rw [if_neg (by omega)]
  · simp only [Option.bind_eq_bind, Option.bind_some]
    split
    · rename_i near
      rw [Nat.mod_eq_of_lt (by omega)]
      rfl
    · rfl

/-- The bounded distance is the least cost of an alignment where that is within the bound, on both
sides the same; without transpositions this is the least number of single edits. -/
theorem bounded_damerau_levenshtein_exact (left right : String) (maxEdits : Nat)
    (transpositions : Bool) (accepted : maxEdits ≤ maxSupportedEdits) :
    ∃ result, boundedDamerauLevenshtein left right maxEdits transpositions = some (.ok result) ∧
      boundedDamerauLevenshtein right left maxEdits transpositions = some (.ok result) ∧
      (∀ edits, result = some edits ↔ edits ≤ maxEdits ∧
        IsLeast {cost | EditDistance.Aligns transpositions left.toList right.toList cost} edits) ∧
      (transpositions = false → ∀ edits, result = some edits ↔ edits ≤ maxEdits ∧
        IsLeast {n | EditDistance.Edits n left.toList right.toList} edits) := by
  have bounded : ∀ {steps : Set Nat}, IsLeast steps (termDistance transpositions left right) →
      ∀ edits, (if termDistance transpositions left right ≤ maxEdits then
        some (termDistance transpositions left right) else none) = some edits ↔
          edits ≤ maxEdits ∧ IsLeast steps edits := by
    intro steps least edits
    constructor
    · intro found
      split at found
      · rename_i near
        cases found
        exact ⟨near, least⟩
      · cases found
    · rintro ⟨near, other⟩
      rw [least.unique other, if_pos near]
  refine ⟨_, boundedDamerauLevenshtein_eq accepted, ?_,
    bounded (EditDistance.isLeast_distance transpositions left.toList right.toList), ?_⟩
  · have mirrored : termDistance transpositions right left = termDistance transpositions left right :=
      EditDistance.distance_comm transpositions right.toList left.toList
    rw [boundedDamerauLevenshtein_eq accepted, mirrored]
  · rintro rfl
    exact bounded (EditDistance.isLeast_edits left.toList right.toList)

theorem bounded_damerau_levenshtein_exact_kitten :
    ∃ result, boundedDamerauLevenshtein "kitten" "sitten" 1 true = some (.ok result) ∧
      boundedDamerauLevenshtein "sitten" "kitten" 1 true = some (.ok result) := by
  obtain ⟨result, forth, back, -⟩ :=
    bounded_damerau_levenshtein_exact "kitten" "sitten" 1 true (by decide)
  exact ⟨result, forth, back⟩

end Bounded

end Surch.Search
