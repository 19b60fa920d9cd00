import Mathlib.Data.List.Basic
import Mathlib.Order.Lattice

/-! The first items of a sorted list. A selection keeps them exactly when none of them is left
out, and an item with enough others in front of it is not one of them. -/
namespace Surch.Lib.Window

variable {α : Type} {le : α → α → Bool}

/- A comparison that orders all items, and tells different ones apart. -/
structure Total (le : α → α → Bool) : Prop where
  total : ∀ x y, le x y = true ∨ le y x = true
  trans : ∀ x y z, le x y = true → le y z = true → le x z = true
  antisymm : ∀ x y, le x y = true → le y x = true → x = y

def front (le : α → α → Bool) (n : Nat) (xs : List α) : List α := (xs.mergeSort le).take n

namespace Total

theorem sorted (total : Total le) (xs : List α) :
    (xs.mergeSort le).Pairwise fun x y => le x y = true :=
  List.pairwise_mergeSort total.trans (fun x y => by simpa using total.total x y) xs

theorem mergeSort_congr (total : Total le) {xs ys : List α} (same : xs.Perm ys) :
    xs.mergeSort le = ys.mergeSort le := by
  apply @List.Perm.eq_of_pairwise _ fun x y => le x y = true
  · intro x y _ _ below above
    exact total.antisymm x y below above
  · exact total.sorted xs
  · exact total.sorted ys
  · exact (List.mergeSort_perm xs le).trans (same.trans (List.mergeSort_perm ys le).symm)

theorem mergeSort_filter (total : Total le) (p : α → Bool) (xs : List α) :
    (xs.filter p).mergeSort le = (xs.mergeSort le).filter p := by
  have kept : ((xs.mergeSort le).filter p).Perm (xs.filter p) :=
    (List.mergeSort_perm xs le).filter p
  have ordered : ((xs.mergeSort le).filter p).Pairwise fun x y => le x y = true :=
    (total.sorted xs).sublist List.filter_sublist
  rw [total.mergeSort_congr kept.symm]
  exact List.mergeSort_of_pairwise ordered

end Total

theorem head?_front (total : Total le) {n : Nat} (positive : 0 < n) {xs : List α} {x : α}
    (member : x ∈ xs) (least : ∀ y ∈ xs, le x y = true) : (front le n xs).head? = some x := by
  have sorted := total.sorted xs
  have permuted := List.mergeSort_perm xs le
  rw [front]
  cases same : xs.mergeSort le with
  | nil =>
    rw [same] at permuted
    rw [permuted.symm.eq_nil] at member
    cases member
  | cons y ys =>
    rw [same] at sorted permuted
    have below := least y (permuted.mem_iff.mp List.mem_cons_self)
    have above : le y x = true := by
      rcases List.mem_cons.mp (permuted.mem_iff.mpr member) with rfl | later
      · exact below
      · exact (List.pairwise_cons.mp sorted).1 x later
    obtain ⟨n, rfl⟩ := Nat.exists_eq_succ_of_ne_zero (Nat.pos_iff_ne_zero.mp positive)
    rw [List.take_succ_cons, total.antisymm x y below above]
    rfl

theorem take_filter_eq_iff (p : α → Bool) (n : Nat) (xs : List α) :
    (xs.filter p).take n = xs.take n ↔ ∀ x ∈ xs.take n, p x = true := by
  constructor
  · intro same x member
    rw [← same] at member
    exact (List.mem_filter.mp (List.mem_of_mem_take member)).2
  · intro kept
    induction xs generalizing n with
    | nil => simp
    | cons x xs ih =>
      cases n with
      | zero => simp
      | succ n =>
        have here : p x = true := kept x (by simp)
        have later := ih n fun y member => kept y (by simp [member])
        simp [here, later]

theorem front_filter_eq_iff (total : Total le) (p : α → Bool) (n : Nat) (xs : List α) :
    front le n (xs.filter p) = front le n xs ↔ ∀ x ∈ front le n xs, p x = true := by
  simp only [front, total.mergeSort_filter]
  exact take_filter_eq_iff p n _

theorem countP_lt_of_mem_front (total : Total le) {n : Nat} {xs : List α} {x : α}
    (member : x ∈ front le n xs) (before : α → Bool)
    (strict : ∀ y, before y = true → le y x = true ∧ y ≠ x) : xs.countP before < n := by
  obtain ⟨i, inside, at_i⟩ := List.getElem_of_mem member
  simp only [front, List.length_take] at inside
  simp only [front, List.getElem_take] at at_i
  have sorted := total.sorted xs
  obtain ⟨ys, same⟩ : ∃ ys, ys = xs.mergeSort le := ⟨_, rfl⟩
  have counted : xs.countP before = ys.countP before :=
    same ▸ ((List.mergeSort_perm xs le).countP_eq before).symm
  rw [← same] at sorted
  simp only [← same] at at_i inside
  have bound : i < ys.length := by omega
  have split : ys = ys.take i ++ x :: ys.drop (i + 1) := by
    rw [← at_i, List.getElem_cons_drop, List.take_append_drop]
  -- nothing at or after the item's place comes strictly before it
  have rest : (x :: ys.drop (i + 1)).countP before = 0 := by
    rw [List.countP_eq_zero]
    intro y member claimed
    obtain ⟨below, different⟩ := strict y claimed
    rcases List.mem_cons.mp member with rfl | later
    · exact different rfl
    · rw [split] at sorted
      have above := (List.pairwise_cons.mp (List.pairwise_append.mp sorted).2.1).1 y later
      exact different (total.antisymm y x below above)
  have few : (ys.take i).countP before ≤ i :=
    Nat.le_trans List.countP_le_length (List.length_take_le i ys)
  rw [counted, split, List.countP_append, rest]
  omega

/-- The value that stands `n` places before the end of the ascending values reaches a bound
exactly when `n` of the values do. -/
theorem le_rank_iff {V : Type} [LinearOrder V] {values : List V} {n : Nat} (positive : 0 < n)
    (enough : n ≤ values.length) (bound fallback : V) :
    bound ≤ (values.mergeSort fun a b => a ≤ b).getD (values.length - n) fallback ↔
      n ≤ values.countP fun value => bound ≤ value := by
  have sorted : (values.mergeSort fun a b => a ≤ b).Pairwise (· ≤ ·) := by
    have pairwise := @List.pairwise_mergeSort _ (fun a b : V => decide (a ≤ b))
      (fun a b c below above => by simpa using le_trans (by simpa using below) (by simpa using above))
      (fun a b => by simpa using le_total a b) values
    simpa using pairwise
  have counted := (List.mergeSort_perm values fun a b => a ≤ b).countP_eq fun value =>
    decide (bound ≤ value)
  have length : (values.mergeSort fun a b => a ≤ b).length = values.length :=
    List.length_mergeSort values
  obtain ⟨ys, same⟩ : ∃ ys, ys = values.mergeSort fun a b => a ≤ b := ⟨_, rfl⟩
  rw [← same] at sorted counted length ⊢
  rw [← counted, ← length]
  rw [← length] at enough
  have inside : ys.length - n < ys.length := by omega
  rw [List.getD_eq_getElem?_getD, List.getElem?_eq_getElem inside, Option.getD_some]
  have split : ys = ys.take (ys.length - n) ++
      ys[ys.length - n] :: ys.drop (ys.length - n + 1) := by
    rw [List.getElem_cons_drop, List.take_append_drop]
  constructor
  · intro reaches
    have above : ∀ value ∈ ys.drop (ys.length - n), bound ≤ value := by
      intro value member
      rw [List.drop_eq_getElem_cons inside] at member
      rw [split] at sorted
      rcases List.mem_cons.mp member with rfl | later
      · exact reaches
      · exact le_trans reaches
          ((List.pairwise_cons.mp (List.pairwise_append.mp sorted).2.1).1 value later)
    have all : (ys.drop (ys.length - n)).countP (fun value => bound ≤ value) = n := by
      rw [List.countP_eq_length.mpr (by simpa using above), List.length_drop]
      omega
    have part : (ys.drop (ys.length - n)).countP (fun value => decide (bound ≤ value)) ≤
        ys.countP fun value => decide (bound ≤ value) :=
      (List.drop_sublist (ys.length - n) ys).countP_le
    omega
  · intro many
    by_contra misses
    rw [not_le] at misses
    have below : (ys.take (ys.length - n)).countP (fun value => bound ≤ value) = 0 := by
      rw [List.countP_eq_zero]
      intro value member reaches
      rw [split] at sorted
      have ordered := (List.pairwise_append.mp sorted).2.2 value member _ List.mem_cons_self
      simp at reaches
      exact absurd (le_trans reaches ordered) (not_le.mpr misses)
    have few : (ys.drop (ys.length - n + 1)).countP (fun value => bound ≤ value) ≤ n - 1 := by
      have bounded := List.countP_le_length (p := fun value => decide (bound ≤ value))
        (l := ys.drop (ys.length - n + 1))
      rw [List.length_drop] at bounded
      omega
    have total := congrArg (List.countP fun value => decide (bound ≤ value)) split
    rw [List.countP_append, List.countP_cons, below, if_neg (by simpa using misses)] at total
    omega

end Surch.Lib.Window
