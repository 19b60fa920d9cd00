import Mathlib.Data.List.Sort

/-! The two-pointer walk that meets two lists on equal keys: the lesser head is dropped, equal
heads are emitted together. -/
namespace Surch.Lib

variable {α β γ κ : Type*} [LinearOrder κ]

def meet (left : α → κ) (right : β → κ) (emit : α → β → List γ) : List α → List β → List γ
  | x :: xs, y :: ys =>
    if left x < right y then meet left right emit xs (y :: ys)
    else if right y < left x then meet left right emit (x :: xs) ys
    else emit x y ++ meet left right emit xs ys
  | [], _ => []
  | _ :: _, [] => []
termination_by xs ys => xs.length + ys.length

variable {left : α → κ} {right : β → κ} {emit : α → β → List γ}

theorem mem_meet {xs : List α} {ys : List β} (ascending : xs.Pairwise (left · < left ·))
    (ascending' : ys.Pairwise (right · < right ·)) {z : γ} :
    z ∈ meet left right emit xs ys ↔
      ∃ x ∈ xs, ∃ y ∈ ys, left x = right y ∧ z ∈ emit x y := by
  induction xs, ys using meet.induct left right with
  | case1 x xs y ys less ih =>
    rw [meet, if_pos less, ih ascending.of_cons ascending']
    -- the head is below every key on the other side, so it meets nothing
    have alone : ∀ y' ∈ y :: ys, left x ≠ right y' := by
      intro y' member equal
      rcases List.mem_cons.mp member with rfl | member
      · exact less.ne equal
      · exact (less.trans (List.rel_of_pairwise_cons ascending' member)).ne equal
    constructor
    · rintro ⟨x', member, rest⟩
      exact ⟨x', List.mem_cons_of_mem _ member, rest⟩
    · rintro ⟨x', member, y', member', equal, emitted⟩
      rcases List.mem_cons.mp member with rfl | member
      · exact absurd equal (alone y' member')
      · exact ⟨x', member, y', member', equal, emitted⟩
  | case2 x xs y ys notLess less ih =>
    rw [meet, if_neg notLess, if_pos less, ih ascending ascending'.of_cons]
    have alone : ∀ x' ∈ x :: xs, left x' ≠ right y := by
      intro x' member equal
      rcases List.mem_cons.mp member with rfl | member
      · exact less.ne equal.symm
      · exact (less.trans (List.rel_of_pairwise_cons ascending member)).ne equal.symm
    constructor
    · rintro ⟨x', member, y', member', rest⟩
      exact ⟨x', member, y', List.mem_cons_of_mem _ member', rest⟩
    · rintro ⟨x', member, y', member', equal, emitted⟩
      rcases List.mem_cons.mp member' with rfl | member'
      · exact absurd equal (alone x' member)
      · exact ⟨x', member, y', member', equal, emitted⟩
  | case3 x xs y ys notLess notLess' ih =>
    have same : left x = right y := le_antisymm (not_lt.mp notLess') (not_lt.mp notLess)
    rw [meet, if_neg notLess, if_neg notLess', List.mem_append,
      ih ascending.of_cons ascending'.of_cons]
    constructor
    · rintro (emitted | ⟨x', member, y', member', rest⟩)
      · exact ⟨x, List.mem_cons_self, y, List.mem_cons_self, same, emitted⟩
      · exact ⟨x', List.mem_cons_of_mem _ member, y', List.mem_cons_of_mem _ member', rest⟩
    · rintro ⟨x', member, y', member', equal, emitted⟩
      rcases List.mem_cons.mp member with rfl | member <;>
        rcases List.mem_cons.mp member' with rfl | member'
      · exact .inl emitted
      · exact absurd (same.symm.trans equal) (List.rel_of_pairwise_cons ascending' member').ne
      · exact absurd (same.trans equal.symm) (List.rel_of_pairwise_cons ascending member).ne
      · exact .inr ⟨x', member, y', member', equal, emitted⟩
  | case4 ys => simp [meet]
  | case5 x xs => simp [meet]

theorem meet_pairwise {r : γ → γ → Prop} {xs : List α} {ys : List β}
    (ascending : xs.Pairwise (left · < left ·)) (ascending' : ys.Pairwise (right · < right ·))
    (within : ∀ x ∈ xs, ∀ y ∈ ys, (emit x y).Pairwise r)
    (across : ∀ x ∈ xs, ∀ x' ∈ xs, ∀ y ∈ ys, ∀ y' ∈ ys, left x < left x' →
      ∀ z ∈ emit x y, ∀ z' ∈ emit x' y', r z z') :
    (meet left right emit xs ys).Pairwise r := by
  induction xs, ys using meet.induct left right with
  | case1 x xs y ys less ih =>
    rw [meet, if_pos less]
    exact ih ascending.of_cons ascending' (fun x' member => within x' (by simp [member]))
      (fun x' member x'' member' => across x' (by simp [member]) x'' (by simp [member']))
  | case2 x xs y ys notLess less ih =>
    rw [meet, if_neg notLess, if_pos less]
    exact ih ascending ascending'.of_cons
      (fun x' member y' member' => within x' member y' (by simp [member']))
      (fun x' member x'' member' y' hy y'' hy' =>
        across x' member x'' member' y' (by simp [hy]) y'' (by simp [hy']))
  | case3 x xs y ys notLess notLess' ih =>
    rw [meet, if_neg notLess, if_neg notLess']
    refine List.pairwise_append.mpr ⟨within x (by simp) y (by simp), ?_, ?_⟩
    · exact ih ascending.of_cons ascending'.of_cons
        (fun x' member y' member' => within x' (by simp [member]) y' (by simp [member']))
        (fun x' member x'' member' y' hy y'' hy' => across x' (by simp [member]) x''
          (by simp [member']) y' (by simp [hy]) y'' (by simp [hy']))
    · intro z emitted z' later
      obtain ⟨x', member, y', member', -, emitted'⟩ :=
        (mem_meet ascending.of_cons ascending'.of_cons).mp later
      exact across x (by simp) x' (by simp [member]) y (by simp) y' (by simp [member'])
        (List.rel_of_pairwise_cons ascending member) z emitted z' emitted'
  | case4 ys => simp [meet]
  | case5 x xs => simp [meet]

end Surch.Lib
