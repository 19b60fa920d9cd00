import Mathlib.Algebra.BigOperators.Group.List.Basic
import Mathlib.Algebra.GroupWithZero.Nat
import Mathlib.Data.List.TakeDrop

/-! Rows laid end to end in one flat list, addressed by the position where each row starts. -/
namespace Surch.Lib

variable {α β : Type}

def rowStart (rows : List (List α)) (i : Nat) : Nat := ((rows.take i).map List.length).sum

def rowStarts (rows : List (List α)) : List Nat :=
  (List.range (rows.length + 1)).map (rowStart rows)

@[simp] theorem rowStart_zero (rows : List (List α)) : rowStart rows 0 = 0 := rfl

theorem rowStart_eq_flatten (rows : List (List α)) (i : Nat) :
    rowStart rows i = (rows.take i).flatten.length := by
  rw [rowStart, List.length_flatten]

theorem rowStart_succ {rows : List (List α)} {i : Nat} {row : List α}
    (here : rows[i]? = some row) : rowStart rows (i + 1) = rowStart rows i + row.length := by
  rw [rowStart, rowStart, List.take_add_one, here]
  simp

theorem rowStart_append_of_le {rows : List (List α)} (more : List (List α)) {i : Nat}
    (inside : i ≤ rows.length) : rowStart (rows ++ more) i = rowStart rows i := by
  rw [rowStart, rowStart, List.take_append_of_le_length inside]

theorem rowStart_length (rows : List (List α)) : rowStart rows rows.length = rows.flatten.length := by
  rw [rowStart_eq_flatten, List.take_length]

theorem flatten_split {rows : List (List α)} {i : Nat} {row : List α} (here : rows[i]? = some row) :
    rows.flatten = (rows.take i).flatten ++ row ++ (rows.drop (i + 1)).flatten := by
  obtain ⟨inside, value⟩ := List.getElem?_eq_some_iff.mp here
  conv_lhs => rw [← List.take_append_drop i rows]
  rw [List.flatten_append, List.drop_eq_getElem_cons inside, value, List.flatten_cons,
    List.append_assoc]

theorem rowStart_add_le {rows : List (List α)} {i : Nat} {row : List α}
    (here : rows[i]? = some row) : rowStart rows i + row.length ≤ rows.flatten.length := by
  rw [flatten_split here, rowStart_eq_flatten, List.length_append, List.length_append]
  omega

theorem flatten_slice {rows : List (List α)} {i : Nat} {row : List α} (here : rows[i]? = some row) :
    (rows.flatten.drop (rowStart rows i)).take row.length = row := by
  rw [flatten_split here, rowStart_eq_flatten, List.append_assoc, List.drop_left, List.take_left]

@[simp] theorem rowStarts_nil : rowStarts ([] : List (List α)) = [0] := rfl

theorem rowStarts_append_singleton (rows : List (List α)) (row : List α) :
    rowStarts (rows ++ [row]) = rowStarts rows ++ [rows.flatten.length + row.length] := by
  rw [rowStarts, rowStarts, List.length_append, List.length_singleton, List.range_succ,
    List.map_append, List.map_singleton]
  congr 1
  · apply List.map_congr_left
    intro i member
    exact rowStart_append_of_le [row] (Nat.lt_succ_iff.mp (List.mem_range.mp member))
  · rw [rowStart_eq_flatten, List.take_of_length_le (by simp)]
    simp

@[simp] theorem rowStarts_length (rows : List (List α)) :
    (rowStarts rows).length = rows.length + 1 := by
  rw [rowStarts, List.length_map, List.length_range]

theorem rowStarts_getElem? {rows : List (List α)} {i : Nat} (inside : i ≤ rows.length) :
    (rowStarts rows)[i]? = some (rowStart rows i) := by
  rw [rowStarts, List.getElem?_map, List.getElem?_range (by omega)]
  rfl

theorem rowStart_congr (xs : List (List α)) (ys : List (List β))
    (lengths : xs.map List.length = ys.map List.length) (i : Nat) :
    rowStart xs i = rowStart ys i := by
  rw [rowStart, rowStart, List.map_take, List.map_take, lengths]

/-- Rows that are no longer than others make no longer a list. -/
theorem flatten_length_le {γ : Type} (items : List γ) (f : γ → List α) (g : γ → List β)
    (bound : ∀ item ∈ items, (f item).length ≤ (g item).length) :
    (items.map f).flatten.length ≤ (items.map g).flatten.length := by
  induction items with
  | nil => exact Nat.le_refl 0
  | cons item items ih =>
    have here := bound item List.mem_cons_self
    have rest := ih fun other member => bound other (List.mem_cons_of_mem _ member)
    simp only [List.map_cons, List.flatten_cons, List.length_append]
    omega

end Surch.Lib
