import Mathlib.Data.List.Basic
import Mathlib.Order.Nat

/-! A dense column: a list read by position, where what lies past its end reads as a filler and a
write past its end first pads the list. -/
namespace Surch.Lib

variable {α : Type}

/- Resize on write: the column grows to reach `i` and position `i` is set. -/
def writeAt (fill : α) (column : List α) (i : Nat) (v : α) : List α :=
  (column ++ List.replicate (i + 1 - column.length) fill).set i v

@[simp] theorem length_writeAt (fill : α) (column : List α) (i : Nat) (v : α) :
    (writeAt fill column i v).length = max column.length (i + 1) := by
  rw [writeAt, List.length_set, List.length_append, List.length_replicate]
  omega

theorem getD_writeAt (fill : α) (column : List α) (i : Nat) (v : α) (j : Nat) :
    (writeAt fill column i v).getD j fill = if j = i then v else column.getD j fill := by
  simp only [writeAt, List.getD_eq_getElem?_getD, List.getElem?_set, List.getElem?_append,
    List.getElem?_replicate, List.length_append, List.length_replicate]
  by_cases same : j = i
  · subst same
    simp only [if_true]
    rw [if_pos (by omega)]
    rfl
  · rw [if_neg (Ne.symm same), if_neg same]
    by_cases inside : j < column.length
    · rw [if_pos inside]
    · rw [if_neg inside, List.getElem?_eq_none (not_lt.mp inside)]
      split <;> rfl

theorem mem_writeAt {fill : α} {column : List α} {i : Nat} {v x : α}
    (member : x ∈ writeAt fill column i v) : x ∈ column ∨ x = fill ∨ x = v := by
  rcases List.mem_or_eq_of_mem_set member with before | now
  · rcases List.mem_append.mp before with old | padding
    · exact .inl old
    · exact .inr (.inl (List.eq_of_mem_replicate padding))
  · exact .inr (.inr now)

theorem getD_mem (fill : α) (column : List α) (j : Nat) :
    column.getD j fill = fill ∨ column.getD j fill ∈ column := by
  by_cases inside : j < column.length
  · right
    simp [List.getD_eq_getElem?_getD, inside]
  · simp [List.getD_eq_getElem?_getD, inside]

theorem getD_of_length_le {fill : α} {column : List α} {j : Nat} (past : column.length ≤ j) :
    column.getD j fill = fill := by
  rw [List.getD_eq_getElem?_getD, List.getElem?_eq_none past]
  rfl

/-- A position that does not read as the filler lies inside the column. -/
theorem lt_length_of_getD_ne {fill : α} {column : List α} {j : Nat} (found : column.getD j fill ≠ fill) :
    j < column.length := by
  by_contra past
  exact found (getD_of_length_le (not_lt.mp past))

end Surch.Lib
