import Mathlib.Data.List.NodupEquivFin
import Mathlib.Order.WellFounded

/-! A binary search by a comparator, in a list that the comparator strictly orders. -/
namespace Surch.Lib.BinarySearch

variable {α : Type}

section Search

variable (probe : α → Ordering) (data : List α)

/- The loop: `size` places from `base` on are left. Half of them go each turn. -/
def narrow : Nat → Nat → Nat → Nat
  | 0, _, base => base
  | fuel + 1, size, base =>
    if size ≤ 1 then base
    else
      let mid := base + size / 2
      narrow fuel (size - size / 2) (if data[mid]?.map probe = some .gt then base else mid)

/- The place of a match, or the place where one would stand. -/
def binarySearchBy : Except Nat Nat :=
  let base := narrow probe data data.length data.length 0
  match data[base]?.map probe with
  | none => .error 0
  | some .eq => .ok base
  | some .lt => .error (base + 1)
  | some .gt => .error base

def position : Nat :=
  match binarySearchBy probe data with
  | .ok place => place
  | .error place => place

variable {probe data}

theorem narrow_lt (fuel size base : Nat) (positive : 0 < size) (inside : base + size ≤ data.length) :
    narrow probe data fuel size base < data.length := by
  induction fuel generalizing size base with
  | zero =>
    unfold narrow
    omega
  | succ fuel ih =>
    unfold narrow
    split
    · omega
    · dsimp only
      split
      · exact ih _ _ (by omega) (by omega)
      · exact ih _ _ (by omega) (by omega)

theorem position_le : position probe data ≤ data.length := by
  unfold position binarySearchBy
  dsimp only
  rcases Nat.eq_zero_or_pos data.length with empty | some
  · rw [List.getElem?_eq_none (by omega)]
    exact Nat.zero_le _
  · have inside := @narrow_lt _ probe data data.length data.length 0 some (by omega)
    generalize narrow probe data _ _ 0 = base at inside ⊢
    rw [List.getElem?_eq_getElem inside, Option.map_some]
    cases probe data[base] <;> dsimp only <;> omega

variable {front back : List α}

theorem narrow_spec (below : ∀ x ∈ front, probe x = .lt) (above : ∀ x ∈ back, probe x = .gt)
    (fuel size base : Nat) (enough : size ≤ fuel) (positive : 0 < size)
    (inside : base + size ≤ (front ++ back).length) (after : base ≤ front.length)
    (before : front.length ≤ base + size) :
    let found := narrow probe (front ++ back) fuel size base
    found ≤ front.length ∧ front.length ≤ found + 1 := by
  induction fuel generalizing size base with
  | zero => omega
  | succ fuel ih =>
    unfold narrow
    by_cases single : size ≤ 1
    · rw [if_pos single]
      dsimp only
      omega
    · rw [if_neg single]
      dsimp only
      have in_range : base + size / 2 < (front ++ back).length := by omega
      rw [List.getElem?_eq_getElem in_range, Option.map_some]
      by_cases left : base + size / 2 < front.length
      · have less : probe (front ++ back)[base + size / 2] = .lt := by
          rw [List.getElem_append_left left]
          exact below _ (List.getElem_mem left)
        rw [less, if_neg (by decide)]
        exact ih (size - size / 2) (base + size / 2) (by omega) (by omega) (by omega) (by omega)
          (by omega)
      · have greater : probe (front ++ back)[base + size / 2] = .gt := by
          rw [List.getElem_append_right (by omega)]
          exact above _ (List.getElem_mem _)
        rw [greater, if_pos rfl]
        exact ih (size - size / 2) base (by omega) (by omega) (by omega) after (by omega)

theorem position_append (below : ∀ x ∈ front, probe x = .lt) (above : ∀ x ∈ back, probe x = .gt) :
    position probe (front ++ back) = front.length := by
  unfold position binarySearchBy
  dsimp only
  rcases Nat.eq_zero_or_pos (front ++ back).length with empty | some
  · have none := List.eq_nil_of_length_eq_zero empty
    obtain ⟨rfl, rfl⟩ := List.append_eq_nil_iff.mp none
    rfl
  · have inside := @narrow_lt _ probe (front ++ back) (front ++ back).length _ 0 some (Nat.zero_add _).le
    obtain ⟨after, before⟩ := narrow_spec below above _ _ 0 (Nat.le_refl _) some
      (Nat.zero_add _).le (Nat.zero_le _) (by rw [List.length_append]; omega)
    generalize narrow probe (front ++ back) _ _ 0 = base at inside after before ⊢
    rw [List.getElem?_eq_getElem inside, Option.map_some]
    by_cases left : base < front.length
    · rw [List.getElem_append_left left, below _ (List.getElem_mem left)]
      dsimp only
      omega
    · rw [List.getElem_append_right (by omega), above _ (List.getElem_mem _)]
      dsimp only
      omega

end Search

section Order

structure StrictTotalOn (cmp : α → α → Ordering) (items : List α) : Prop where
  swap : ∀ a ∈ items, ∀ b ∈ items, cmp b a = (cmp a b).swap
  eq_of : ∀ a ∈ items, ∀ b ∈ items, cmp a b = .eq → a = b
  trans : ∀ a ∈ items, ∀ b ∈ items, ∀ c ∈ items, cmp a b = .lt → cmp b c = .lt → cmp a c = .lt

/- The items in the order of the comparator, each before all that it is less than. -/
structure Sorts (cmp : α → α → Ordering) (items sorted : List α) : Prop where
  perm : sorted.Perm items
  ordered : sorted.Pairwise fun a b => cmp a b = .lt

variable {cmp : α → α → Ordering} {items other sorted : List α}

namespace StrictTotalOn

theorem of_subset (order : StrictTotalOn cmp items) (inside : other ⊆ items) :
    StrictTotalOn cmp other where
  swap a ha b hb := order.swap a (inside ha) b (inside hb)
  eq_of a ha b hb := order.eq_of a (inside ha) b (inside hb)
  trans a ha b hb c hc := order.trans a (inside ha) b (inside hb) c (inside hc)

theorem gt_iff (order : StrictTotalOn cmp items) {a b : α} (ha : a ∈ items) (hb : b ∈ items) :
    cmp a b = .gt ↔ cmp b a = .lt := by
  rw [order.swap a ha b hb]
  cases cmp a b <;> simp

end StrictTotalOn

theorem Sorts.unique (order : StrictTotalOn cmp items) (first : Sorts cmp items sorted)
    (second : Sorts cmp items other) : sorted = other := by
  refine List.Perm.eq_of_pairwise ?_ first.ordered second.ordered
    (first.perm.trans second.perm.symm)
  intro a b ha hb less more
  have greater := (order.gt_iff (first.perm.subset ha) (second.perm.subset hb)).mpr more
  rw [less] at greater
  cases greater

theorem exists_split {item : α} (order : StrictTotalOn cmp (item :: items)) (new : item ∉ items)
    (ordered : items.Pairwise fun a b => cmp a b = .lt) :
    ∃ front back, items = front ++ back ∧ (∀ x ∈ front, cmp x item = .lt) ∧
      ∀ x ∈ back, cmp x item = .gt := by
  induction items with
  | nil => exact ⟨[], [], rfl, by simp, by simp⟩
  | cons head tail ih =>
    obtain ⟨behind, ordered⟩ := List.pairwise_cons.mp ordered
    have here : item ∈ item :: head :: tail := List.mem_cons_self
    have first : head ∈ item :: head :: tail := by simp
    cases compared : cmp head item with
    | lt =>
      have later : StrictTotalOn cmp (item :: tail) := order.of_subset (by simp)
      obtain ⟨front, back, rfl, below, above⟩ :=
        ih later (fun member => new (List.mem_cons_of_mem _ member)) ordered
      refine ⟨head :: front, back, rfl, ?_, above⟩
      intro x member
      rcases List.mem_cons.mp member with rfl | member
      · exact compared
      · exact below x member
    | eq =>
      have same := order.eq_of head first item here compared
      exact absurd (same ▸ List.mem_cons_self) new
    | gt =>
      refine ⟨[], head :: tail, rfl, by simp, ?_⟩
      intro x member
      rcases List.mem_cons.mp member with rfl | member
      · exact compared
      · have inside : x ∈ item :: head :: tail := by simp [member]
        rw [order.gt_iff inside here]
        exact order.trans item here head first x inside ((order.gt_iff first here).mp compared)
          (behind x member)

theorem Sorts.insert {item : α} {front back : List α} (sorts : Sorts cmp items (front ++ back))
    (order : StrictTotalOn cmp (items ++ [item])) (below : ∀ x ∈ front, cmp x item = .lt)
    (above : ∀ x ∈ back, cmp x item = .gt) : Sorts cmp (items ++ [item]) (front ++ item :: back) := by
  constructor
  · refine List.perm_middle.trans ((sorts.perm.cons item).trans ?_)
    exact (List.perm_append_singleton item items).symm
  · obtain ⟨front_ordered, back_ordered, across⟩ := List.pairwise_append.mp sorts.ordered
    refine List.pairwise_append.mpr ⟨front_ordered, List.pairwise_cons.mpr ⟨?_, back_ordered⟩, ?_⟩
    · intro x member
      have inside : x ∈ items ++ [item] :=
        List.mem_append_left _ (sorts.perm.subset (List.mem_append_right _ member))
      exact (order.gt_iff inside (by simp)).mp (above x member)
    · intro x member y member'
      rcases List.mem_cons.mp member' with rfl | later
      · exact below x member
      · exact across x member y later

theorem rank_le_of_sublist (order : StrictTotalOn cmp items) (ordered : items.Pairwise fun a b => cmp a b = .lt)
    (sub : other.Sublist items) {rank : Nat} {worst : α} (ranked : other[rank]? = some worst) :
    ∃ better, items[rank]? = some better ∧ cmp better worst ≠ .gt := by
  obtain ⟨place, same⟩ := List.sublist_iff_exists_orderEmbedding_getElem?_eq.mp sub
  rw [same rank] at ranked
  obtain ⟨inside, here⟩ := List.getElem?_eq_some_iff.mp ranked
  have later : rank ≤ place rank := StrictMono.le_apply place.strictMono
  have earlier : rank < items.length := by omega
  refine ⟨items[rank], List.getElem?_eq_getElem earlier, ?_⟩
  rcases later.eq_or_lt with equal | less
  · have self : items[rank] = worst := by
      rw [← here]
      congr 1
    rw [self]
    have member : worst ∈ items := here ▸ List.getElem_mem inside
    have swapped := order.swap worst member worst member
    intro greater
    rw [greater] at swapped
    cases swapped
  · rw [← here, List.pairwise_iff_getElem.mp ordered rank (place rank) earlier inside less]
    decide

end Order

end Surch.Lib.BinarySearch
