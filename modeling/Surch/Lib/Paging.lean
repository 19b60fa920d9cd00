import Mathlib.Data.List.Basic
import Mathlib.Order.Lattice

/-! Pages of a sorted list, cut behind a cursor. Every page is computed from the whole list: the items
with a key above the cursor's, as many as fit, and a cursor for the next page if some are left. -/
namespace Surch.Lib.Paging

variable {V K C : Type} [LinearOrder K] (key : V → K) (place : C → K) (cursor : V → C) (size : Nat)
  (items : List V)

def remaining (after : Option C) : List V :=
  match after with
  | none => items
  | some after => items.filter fun item => place after < key item

def fetch (after : Option C) : List V × Option C :=
  let rest := remaining key place items after
  (rest.take size, if size < rest.length then (rest.take size).getLast?.map cursor else none)

/- The pages one after the other; there is no result while a cursor is left. -/
def walk {P : Type} (fetch : Option C → P × Option C) : Nat → Option C → Option (List P)
  | 0, _ => none
  | fuel + 1, after =>
    match fetch after with
    | (page, none) => some [page]
    | (page, some next) => (walk fetch fuel (some next)).map (page :: ·)

variable {key place cursor size items}

theorem remaining_cursor (sorted : items.Pairwise fun x y => key x < key y)
    (placed : ∀ item ∈ items, place (cursor item) = key item) {front back : List V} {item : V}
    (split : items = front ++ item :: back) :
    remaining key place items (some (cursor item)) = back := by
  have there : place (cursor item) = key item := placed item (by simp [split])
  rw [split, List.pairwise_append, List.pairwise_cons] at sorted
  obtain ⟨-, ⟨above, -⟩, below⟩ := sorted
  have lower : (front.filter fun other => key item < key other) = [] := by
    rw [List.filter_eq_nil_iff]
    intro other member
    simpa using (below other member item List.mem_cons_self).le
  have upper : (back.filter fun other => key item < key other) = back := by
    rw [List.filter_eq_self]
    intro other member
    simpa using above other member
  simp [remaining, there, split, lower, upper]

theorem walk_fetch (sorted : items.Pairwise fun x y => key x < key y)
    (placed : ∀ item ∈ items, place (cursor item) = key item) (positive : 0 < size) (fuel : Nat)
    {front rest : List V} {after : Option C} (split : items = front ++ rest)
    (left : remaining key place items after = rest) (enough : rest.length < fuel) :
    ∃ pages, walk (fetch key place cursor size items) fuel after = some pages ∧
      pages.flatten = rest := by
  induction fuel generalizing front rest after with
  | zero => omega
  | succ fuel ih =>
    unfold walk fetch
    rw [left]
    by_cases more : size < rest.length
    · have nonempty : rest.take size ≠ [] := by
        intro empty
        have length := congrArg List.length empty
        rw [List.length_take, List.length_nil] at length
        omega
      obtain ⟨init, item, last⟩ := List.eq_nil_or_concat (rest.take size) |>.resolve_left nonempty
      rw [List.concat_eq_append] at last
      have cut : items = (front ++ init) ++ item :: rest.drop size := by
        have whole := List.take_append_drop size rest
        rw [last] at whole
        rw [split]
        simpa using whole.symm
      have behind := remaining_cursor sorted placed cut
      have cut' : items = (front ++ init ++ [item]) ++ rest.drop size := by simpa using cut
      obtain ⟨pages, walked, joined⟩ := ih cut' behind (by rw [List.length_drop]; omega)
      refine ⟨rest.take size :: pages, ?_, ?_⟩
      · have next : (rest.take size).getLast? = some item := by rw [last]; simp
        simp only [if_pos more, next, Option.map_some]
        exact congrArg (Option.map _) walked
      · rw [List.flatten_cons, joined, List.take_append_drop]
    · refine ⟨[rest.take size], ?_, ?_⟩
      · simp only [if_neg more]
      · simp [List.take_of_length_le (Nat.not_lt.mp more)]

/-- The pages do not depend on how many turns were allowed. -/
theorem walk_unique {P : Type} {fetch : Option C → P × Option C} {fuel fuel' : Nat}
    {after : Option C} {pages pages' : List P} (walked : walk fetch fuel after = some pages)
    (walked' : walk fetch fuel' after = some pages') : pages = pages' := by
  induction fuel generalizing fuel' after pages pages' with
  | zero => cases walked
  | succ fuel ih =>
    cases fuel' with
    | zero => cases walked'
    | succ fuel' =>
      unfold walk at walked walked'
      split at walked
      · rename_i page last
        rw [last] at walked'
        cases walked
        cases walked'
        rfl
      · rename_i page next more
        rw [more] at walked'
        obtain ⟨rest, later, rfl⟩ := Option.map_eq_some_iff.mp walked
        obtain ⟨rest', later', rfl⟩ := Option.map_eq_some_iff.mp walked'
        rw [ih later later']

theorem walk_map {P Q : Type} (f : P → Q) (fetch : Option C → P × Option C) (fuel : Nat)
    (after : Option C) :
    walk (fun after => (f (fetch after).1, (fetch after).2)) fuel after =
      (walk fetch fuel after).map (List.map f) := by
  induction fuel generalizing after with
  | zero => rfl
  | succ fuel ih =>
    unfold walk
    cases fetched : fetch after with
    | mk page next =>
      cases next with
      | none => rfl
      | some next =>
        simp only [ih, Option.map_map]
        rfl

end Surch.Lib.Paging
