import Mathlib.Data.List.Basic
import Mathlib.Order.Bounds.Basic
import Mathlib.Order.MinMax

/-! Edit distances. An alignment edits no letter twice; neighbours may be aligned crosswise where
that is allowed. The recursion finds the cheapest alignment, and without crossings this is the least
number of single edits from one word to the other. -/
namespace Surch.Lib.EditDistance

variable {α : Type}

inductive Aligns (swaps : Bool) : List α → List α → Nat → Prop
  | nil : Aligns swaps [] [] 0
  | keep {xs ys : List α} {cost : Nat} (x : α) :
      Aligns swaps xs ys cost → Aligns swaps (x :: xs) (x :: ys) cost
  | substitute {xs ys : List α} {cost : Nat} (x y : α) :
      Aligns swaps xs ys cost → Aligns swaps (x :: xs) (y :: ys) (cost + 1)
  | delete {xs ys : List α} {cost : Nat} (x : α) :
      Aligns swaps xs ys cost → Aligns swaps (x :: xs) ys (cost + 1)
  | insert {xs ys : List α} {cost : Nat} (y : α) :
      Aligns swaps xs ys cost → Aligns swaps xs (y :: ys) (cost + 1)
  | transpose {xs ys : List α} {cost : Nat} (x y : α) (allowed : swaps = true) :
      Aligns swaps xs ys cost → Aligns swaps (x :: y :: xs) (y :: x :: ys) (cost + 1)

namespace Aligns

variable {swaps : Bool} {xs ys xs' ys' : List α} {cost cost' : Nat}

theorem symm (aligned : Aligns swaps xs ys cost) : Aligns swaps ys xs cost := by
  induction aligned with
  | nil => exact .nil
  | keep x _ ih => exact .keep x ih
  | substitute x y _ ih => exact .substitute y x ih
  | delete x _ ih => exact .insert x ih
  | insert y _ ih => exact .delete y ih
  | transpose x y allowed _ ih => exact .transpose y x allowed ih

theorem append (aligned : Aligns swaps xs ys cost) (behind : Aligns swaps xs' ys' cost') :
    Aligns swaps (xs ++ xs') (ys ++ ys') (cost + cost') := by
  induction aligned with
  | nil => simpa using behind
  | keep x _ ih => exact .keep x ih
  | substitute x y _ ih => simpa [Nat.add_right_comm] using Aligns.substitute x y ih
  | delete x _ ih => simpa [Nat.add_right_comm] using Aligns.delete x ih
  | insert y _ ih => simpa [Nat.add_right_comm] using Aligns.insert y ih
  | transpose x y allowed _ ih => simpa [Nat.add_right_comm] using Aligns.transpose x y allowed ih

theorem reverse (aligned : Aligns swaps xs ys cost) :
    Aligns swaps xs.reverse ys.reverse cost := by
  induction aligned with
  | nil => exact .nil
  | keep x _ ih => simpa using ih.append (.keep x .nil)
  | substitute x y _ ih => simpa using ih.append (.substitute x y .nil)
  | delete x _ ih => simpa using ih.append (.delete x .nil)
  | insert y _ ih => simpa using ih.append (.insert y .nil)
  | transpose x y allowed _ ih => simpa using ih.append (.transpose y x allowed .nil)

/-- An edit changes the length by one at most. -/
theorem length_le (aligned : Aligns swaps xs ys cost) :
    xs.length ≤ ys.length + cost ∧ ys.length ≤ xs.length + cost := by
  induction aligned with
  | nil => simp
  | keep | substitute | delete | insert | transpose => simp only [List.length_cons]; omega

theorem eq_of_zero (aligned : Aligns swaps xs ys 0) : xs = ys := by
  generalize none : 0 = cost at aligned
  induction aligned with
  | nil => rfl
  | keep x _ ih => rw [ih none]
  | substitute | delete | insert | transpose => omega

theorem refl : ∀ xs : List α, Aligns swaps xs xs 0
  | [] => .nil
  | x :: xs => .keep x (refl xs)

theorem deleteAll : ∀ xs : List α, Aligns swaps xs [] xs.length
  | [] => .nil
  | x :: xs => .delete x (deleteAll xs)

end Aligns

section Distance

variable [DecidableEq α] (swaps : Bool)

/- The cost of the cheapest alignment, by what it does with the two first letters. -/
def distance : List α → List α → Nat
  | [], ys => ys.length
  | x :: xs, [] => (x :: xs).length
  | x :: xs, y :: ys =>
    let edited := min (min (distance xs (y :: ys) + 1) (distance (x :: xs) ys + 1))
      (distance xs ys + if x = y then 0 else 1)
    if swaps = true ∧ xs.head? = some y ∧ ys.head? = some x then
      min edited (distance xs.tail ys.tail + 1)
    else edited
termination_by xs ys => xs.length + ys.length

theorem distance_nil_left (ys : List α) : distance swaps [] ys = ys.length := by
  rw [distance]

theorem distance_nil_right (xs : List α) : distance swaps xs [] = xs.length := by
  cases xs <;> simp [distance]

theorem distance_delete_le (x : α) (xs ys : List α) :
    distance swaps (x :: xs) ys ≤ distance swaps xs ys + 1 := by
  cases ys with
  | nil => simp [distance_nil_right]
  | cons y ys => rw [distance]; split <;> omega

theorem distance_insert_le (y : α) (xs ys : List α) :
    distance swaps xs (y :: ys) ≤ distance swaps xs ys + 1 := by
  cases xs with
  | nil => simp [distance_nil_left]
  | cons x xs => rw [distance]; split <;> omega

theorem distance_cons_le (x y : α) (xs ys : List α) :
    distance swaps (x :: xs) (y :: ys) ≤ distance swaps xs ys + if x = y then 0 else 1 := by
  rw [distance]
  split <;> omega

theorem distance_transpose_le (allowed : swaps = true) (x y : α) (xs ys : List α) :
    distance swaps (x :: y :: xs) (y :: x :: ys) ≤ distance swaps xs ys + 1 := by
  rw [distance, if_pos ⟨allowed, rfl, rfl⟩]
  exact min_le_right _ _

variable {swaps}

theorem distance_le {xs ys : List α} {cost : Nat} (aligned : Aligns swaps xs ys cost) :
    distance swaps xs ys ≤ cost := by
  induction aligned with
  | nil => simp [distance_nil_left]
  | @keep xs ys cost x _ ih =>
    have kept := distance_cons_le swaps x x xs ys
    rw [if_pos rfl] at kept
    omega
  | @substitute xs ys cost x y _ ih =>
    have edited := distance_cons_le swaps x y xs ys
    split at edited <;> omega
  | delete x _ ih => exact (distance_delete_le swaps x _ _).trans (by omega)
  | insert y _ ih => exact (distance_insert_le swaps y _ _).trans (by omega)
  | transpose x y allowed _ ih => exact (distance_transpose_le swaps allowed x y _ _).trans (by omega)

/-- The cheapest of the three edits of the first letters is an alignment. -/
theorem Aligns.cheapest {x y : α} {xs ys : List α} {delete insert pair : Nat}
    (deleted : Aligns swaps xs (y :: ys) delete) (inserted : Aligns swaps (x :: xs) ys insert)
    (paired : Aligns swaps xs ys pair) :
    Aligns swaps (x :: xs) (y :: ys)
      (min (min (delete + 1) (insert + 1)) (pair + if x = y then 0 else 1)) := by
  rcases min_choice (min (delete + 1) (insert + 1)) (pair + if x = y then 0 else 1) with
    least | least
  · rw [least]
    rcases min_choice (delete + 1) (insert + 1) with least | least
    · rw [least]
      exact .delete x deleted
    · rw [least]
      exact .insert y inserted
  · rw [least]
    split
    · rename_i same
      rw [← same]
      exact .keep x paired
    · exact .substitute x y paired

theorem aligns_distance (swaps : Bool) (xs ys : List α) :
    Aligns swaps xs ys (distance swaps xs ys) := by
  fun_induction distance swaps xs ys with
  | case1 ys => exact (Aligns.deleteAll ys).symm
  | case2 x xs => exact .deleteAll (x :: xs)
  | case3 x xs y ys edited neighbours deleted inserted paired crossed =>
    have cheapest : Aligns swaps (x :: xs) (y :: ys) edited := deleted.cheapest inserted paired
    obtain ⟨allowed, left, right⟩ := neighbours
    obtain ⟨xs, rfl⟩ := List.head?_eq_some_iff.mp left
    obtain ⟨ys, rfl⟩ := List.head?_eq_some_iff.mp right
    simp only [List.tail_cons] at crossed ⊢
    rcases min_choice edited (distance swaps xs ys + 1) with least | least
    · rw [least]
      exact cheapest
    · rw [least]
      exact .transpose x y allowed crossed
  | case4 x xs y ys edited apart deleted inserted paired => exact deleted.cheapest inserted paired

/-- The recursion finds the cheapest alignment. -/
theorem isLeast_distance (swaps : Bool) (xs ys : List α) :
    IsLeast {cost | Aligns swaps xs ys cost} (distance swaps xs ys) :=
  ⟨aligns_distance swaps xs ys, fun _ aligned => distance_le aligned⟩

theorem distance_comm (swaps : Bool) (xs ys : List α) :
    distance swaps xs ys = distance swaps ys xs :=
  le_antisymm (distance_le (aligns_distance swaps ys xs).symm)
    (distance_le (aligns_distance swaps xs ys).symm)

theorem distance_self (swaps : Bool) (xs : List α) : distance swaps xs xs = 0 :=
  Nat.le_zero.mp (distance_le (.refl xs))

theorem eq_of_distance_eq_zero {xs ys : List α} (none : distance swaps xs ys = 0) : xs = ys := by
  have aligned := aligns_distance swaps xs ys
  rw [none] at aligned
  exact aligned.eq_of_zero

theorem distance_reverse (swaps : Bool) (xs ys : List α) :
    distance swaps xs.reverse ys.reverse = distance swaps xs ys := by
  apply le_antisymm
  · exact distance_le (aligns_distance swaps xs ys).reverse
  · have back := (aligns_distance swaps xs.reverse ys.reverse).reverse
    rw [List.reverse_reverse, List.reverse_reverse] at back
    exact distance_le back

end Distance

section Edits

inductive Edit : List α → List α → Prop
  | insert (y : α) (xs : List α) : Edit xs (y :: xs)
  | delete (x : α) (xs : List α) : Edit (x :: xs) xs
  | substitute (x y : α) (xs : List α) : Edit (x :: xs) (y :: xs)
  | inside {xs ys : List α} (x : α) : Edit xs ys → Edit (x :: xs) (x :: ys)

inductive Edits : Nat → List α → List α → Prop
  | none (xs : List α) : Edits 0 xs xs
  | first {xs ys zs : List α} {n : Nat} : Edit xs ys → Edits n ys zs → Edits (n + 1) xs zs

theorem Edits.inside {n : Nat} {xs ys : List α} (x : α) (edits : Edits n xs ys) :
    Edits n (x :: xs) (x :: ys) := by
  induction edits with
  | none xs => exact .none (x :: xs)
  | first edit _ ih => exact .first (.inside x edit) ih

theorem Aligns.edits {xs ys : List α} {cost : Nat} (aligned : Aligns false xs ys cost) :
    Edits cost xs ys := by
  induction aligned with
  | nil => exact .none []
  | keep x _ ih => exact ih.inside x
  | substitute x y _ ih => exact .first (.substitute x y _) (ih.inside y)
  | delete x _ ih => exact .first (.delete x _) ih
  | insert y _ ih => exact .first (.insert y _) (ih.inside y)
  | transpose _ _ allowed => cases allowed

/-- One edit in front of an alignment costs one more at most. -/
theorem Aligns.after_edit {ys zs : List α} {cost : Nat} (aligned : Aligns false ys zs cost) :
    ∀ {xs : List α}, Edit xs ys → ∃ less ≤ cost + 1, Aligns false xs zs less := by
  induction aligned with
  | nil =>
    intro xs edit
    cases edit with
    | delete x => exact ⟨1, le_rfl, .delete x .nil⟩
  | @keep ys zs cost y aligned ih =>
    intro xs edit
    cases edit with
    | insert => exact ⟨cost + 1, le_rfl, .insert y aligned⟩
    | delete x => exact ⟨cost + 1, le_rfl, .delete x (.keep y aligned)⟩
    | substitute x => exact ⟨cost + 1, le_rfl, .substitute x y aligned⟩
    | inside _ edit =>
      obtain ⟨less, bound, aligned⟩ := ih edit
      exact ⟨less, bound, .keep y aligned⟩
  | @substitute ys zs cost y z aligned ih =>
    intro xs edit
    cases edit with
    | insert => exact ⟨cost + 1, by omega, .insert z aligned⟩
    | delete x => exact ⟨cost + 2, le_rfl, .delete x (.substitute y z aligned)⟩
    | substitute x => exact ⟨cost + 1, by omega, .substitute x z aligned⟩
    | inside _ edit =>
      obtain ⟨less, bound, aligned⟩ := ih edit
      exact ⟨less + 1, by omega, .substitute y z aligned⟩
  | @delete ys zs cost y aligned ih =>
    intro xs edit
    cases edit with
    | insert => exact ⟨cost, by omega, aligned⟩
    | delete x => exact ⟨cost + 2, le_rfl, .delete x (.delete y aligned)⟩
    | substitute x => exact ⟨cost + 1, by omega, .delete x aligned⟩
    | inside _ edit =>
      obtain ⟨less, bound, aligned⟩ := ih edit
      exact ⟨less + 1, by omega, .delete y aligned⟩
  | @insert ys zs cost z aligned ih =>
    intro xs edit
    obtain ⟨less, bound, aligned⟩ := ih edit
    exact ⟨less + 1, by omega, .insert z aligned⟩
  | transpose _ _ allowed => cases allowed

theorem Edits.aligns {n : Nat} {xs ys : List α} (edits : Edits n xs ys) :
    ∃ cost ≤ n, Aligns false xs ys cost := by
  induction edits with
  | none xs => exact ⟨0, le_rfl, .refl xs⟩
  | first edit _ ih =>
    obtain ⟨cost, bound, aligned⟩ := ih
    obtain ⟨less, below, aligned⟩ := aligned.after_edit edit
    exact ⟨less, by omega, aligned⟩

/-- Without crossings the distance is the least number of single edits. -/
theorem isLeast_edits [DecidableEq α] (xs ys : List α) :
    IsLeast {n | Edits n xs ys} (distance false xs ys) := by
  constructor
  · exact (aligns_distance false xs ys).edits
  · intro n edits
    obtain ⟨cost, bound, aligned⟩ := edits.aligns
    exact (distance_le aligned).trans bound

end Edits

end Surch.Lib.EditDistance
