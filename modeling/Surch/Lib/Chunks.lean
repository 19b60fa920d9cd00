import Mathlib.Data.List.Basic
import Mathlib.Data.List.Chain
import Mathlib.Tactic.Ring

/-! Consecutive pieces of a list: `chunks(n)` and `windows(2)` of a slice. -/
namespace Surch.Lib

variable {α β : Type*}

/-- Consecutive pieces of `size` elements; the last one may be shorter. -/
def chunks (size : Nat) : List α → List (List α)
  | [] => []
  | x :: xs =>
    if size = 0 then []
    else (x :: xs).take size :: chunks size ((x :: xs).drop size)
termination_by xs => xs.length
decreasing_by simp only [List.length_drop, List.length_cons]; omega

/-- Adjacent pairs, as `windows(2)` yields them. -/
def windows2 (xs : List α) : List (α × α) := xs.zip xs.tail

@[simp] theorem chunks_nil (size : Nat) : chunks size ([] : List α) = [] := by rw [chunks]

theorem chunks_of_ne_nil {size : Nat} (positive : 0 < size) {xs : List α} (nonempty : xs ≠ []) :
    chunks size xs = xs.take size :: chunks size (xs.drop size) := by
  cases xs with
  | nil => exact absurd rfl nonempty
  | cons x xs => rw [chunks, if_neg (by omega)]

/-- Induction over the pieces: what holds of no piece and of one more piece holds of all. -/
theorem chunks_induction {size : Nat} (positive : 0 < size) {motive : List α → Prop}
    (nil : motive []) (step : ∀ xs, xs ≠ [] → motive (xs.drop size) → motive xs)
    (xs : List α) : motive xs := by
  induction hn : xs.length using Nat.strongRecOn generalizing xs with
  | ind n ih =>
    by_cases empty : xs = []
    · rw [empty]; exact nil
    · have shorter : (xs.drop size).length < n := by
        have := List.length_pos_iff.mpr empty
        rw [List.length_drop]; omega
      exact step xs empty (ih _ shorter _ rfl)

theorem chunks_map {size : Nat} (positive : 0 < size) (f : α → β) (xs : List α) :
    chunks size (xs.map f) = (chunks size xs).map (List.map f) := by
  induction xs using chunks_induction positive with
  | nil => simp
  | step xs nonempty ih =>
    rw [chunks_of_ne_nil positive nonempty, chunks_of_ne_nil positive (by simpa using nonempty),
      List.map_cons, ← ih, List.map_take, List.map_drop]

theorem chunks_append {size : Nat} (positive : 0 < size) {piece rest : List α} (nonempty : piece ≠ [])
    (fits : piece.length = size ∨ piece.length ≤ size ∧ rest = []) :
    chunks size (piece ++ rest) = piece :: chunks size rest := by
  rw [chunks_of_ne_nil positive (by simp [nonempty])]
  rcases fits with full | ⟨short, rfl⟩
  · rw [List.take_left' full, List.drop_left' full]
  · simp [List.take_of_length_le short, List.drop_of_length_le short]

theorem chunks_flatten {size : Nat} (positive : 0 < size) (xs : List α) :
    (chunks size xs).flatten = xs := by
  induction xs using chunks_induction positive with
  | nil => simp
  | step xs nonempty ih =>
    rw [chunks_of_ne_nil positive nonempty, List.flatten_cons, ih, List.take_append_drop]

theorem mem_chunks_sublist {size : Nat} (positive : 0 < size) {xs piece : List α}
    (member : piece ∈ chunks size xs) : piece.Sublist xs := by
  have inside : piece.Sublist (chunks size xs).flatten := List.sublist_flatten_of_mem member
  rwa [chunks_flatten positive] at inside

theorem chunks_zip {size : Nat} (positive : 0 < size) {xs : List α} {ys : List β}
    (aligned : xs.length = ys.length) :
    ((chunks size xs).zip (chunks size ys)).flatMap (fun pieces => pieces.1.zip pieces.2) =
      xs.zip ys := by
  induction xs using chunks_induction positive generalizing ys with
  | nil => simp
  | step xs nonempty ih =>
    have nonempty' : ys ≠ [] := by
      rw [← List.length_pos_iff, ← aligned, List.length_pos_iff]
      exact nonempty
    have shorter : (xs.drop size).length = (ys.drop size).length := by simp [aligned]
    rw [chunks_of_ne_nil positive nonempty, chunks_of_ne_nil positive nonempty', List.zip_cons_cons,
      List.flatMap_cons, ih shorter]
    simp only [List.zip, ← List.take_zipWith, ← List.drop_zipWith]
    exact List.take_append_drop size _

theorem chunks_map_length {size : Nat} (positive : 0 < size) {xs : List α} {ys : List β}
    (aligned : xs.length = ys.length) :
    (chunks size xs).map List.length = (chunks size ys).map List.length := by
  induction xs using chunks_induction positive generalizing ys with
  | nil =>
    obtain rfl := List.length_eq_zero_iff.mp aligned.symm
    simp
  | step xs nonempty ih =>
    have nonempty' : ys ≠ [] := by
      rw [← List.length_pos_iff, ← aligned, List.length_pos_iff]
      exact nonempty
    have shorter : (xs.drop size).length = (ys.drop size).length := by simp [aligned]
    rw [chunks_of_ne_nil positive nonempty, chunks_of_ne_nil positive nonempty', List.map_cons,
      List.map_cons, ih shorter, List.length_take, List.length_take, aligned]

theorem chunks_length {size : Nat} (positive : 0 < size) (xs : List α) :
    (chunks size xs).length = (xs.length + size - 1) / size := by
  induction xs using chunks_induction positive with
  | nil => simp [Nat.div_eq_of_lt (show size - 1 < size by omega)]
  | step xs nonempty ih =>
    have := List.length_pos_iff.mpr nonempty
    rw [chunks_of_ne_nil positive nonempty, List.length_cons, ih, List.length_drop]
    by_cases short : xs.length ≤ size
    · rw [show xs.length - size + size - 1 = size - 1 by omega,
        Nat.div_eq_of_lt (show size - 1 < size by omega),
        show xs.length + size - 1 = (xs.length - 1) + size by omega, Nat.add_div_right _ positive,
        Nat.div_eq_of_lt (by omega)]
    · rw [show xs.length + size - 1 = (xs.length - size + size - 1) + size by omega,
        Nat.add_div_right _ positive]

theorem chunks_getElem? {size : Nat} (positive : 0 < size) (xs : List α) (i : Nat) :
    (chunks size xs)[i]? =
      if size * i < xs.length then some ((xs.drop (size * i)).take size) else none := by
  induction xs using chunks_induction positive generalizing i with
  | nil => simp
  | step xs nonempty ih =>
    have := List.length_pos_iff.mpr nonempty
    rw [chunks_of_ne_nil positive nonempty]
    cases i with
    | zero => simp [this]
    | succ i =>
      rw [List.getElem?_cons_succ, ih, List.length_drop, List.drop_drop, Nat.mul_succ,
        Nat.add_comm size]
      by_cases inside : size * i + size < xs.length
      · rw [if_pos inside, if_pos (by omega)]
      · rw [if_neg inside, if_neg (by omega)]

@[simp] theorem windows2_nil : windows2 ([] : List α) = [] := rfl

@[simp] theorem windows2_singleton (x : α) : windows2 [x] = [] := rfl

@[simp] theorem windows2_cons_cons (x y : α) (xs : List α) :
    windows2 (x :: y :: xs) = (x, y) :: windows2 (y :: xs) := rfl

theorem exists_index_of_mem_windows2 {xs : List α} {pair : α × α} (member : pair ∈ windows2 xs) :
    ∃ i, xs[i]? = some pair.1 ∧ xs[i + 1]? = some pair.2 := by
  obtain ⟨i, at_i⟩ := List.mem_iff_getElem?.mp member
  obtain ⟨first, second⟩ := List.getElem?_zip_eq_some.mp at_i
  rw [List.getElem?_tail] at second
  exact ⟨i, first, second⟩

theorem windows2_all_iff (R : α → α → Bool) (xs : List α) :
    ((windows2 xs).all fun pair => R pair.1 pair.2) = true ↔
      xs.IsChain (fun a b => R a b = true) := by
  induction xs with
  | nil => simp
  | cons x xs ih =>
    cases xs with
    | nil => simp
    | cons y xs =>
      rw [windows2_cons_cons, List.all_cons, Bool.and_eq_true, ih, List.isChain_cons_cons]

end Surch.Lib
