import Mathlib.Data.List.Basic

/-! A stream in which each head says how many of the items after it belong to it: how it is cut, and
when the cuts of pieces put one after the other are those of the whole. -/
namespace Surch.Lib

section Framing

variable {α : Type} (arity : α → Nat)

/- The heads, each with the items that it takes, as far as there are some. -/
def frames : List α → List (α × List α)
  | [] => []
  | head :: rest => (head, rest.take (arity head)) :: frames (rest.drop (arity head))
termination_by stream => stream.length
decreasing_by simp only [List.length_drop, List.length_cons]; omega

inductive Whole : List α → Prop
  | nil : Whole []
  | cons {head : α} {taken rest : List α} (full : taken.length = arity head) (whole : Whole rest) :
    Whole (head :: (taken ++ rest))

variable {arity}

theorem frames_cons {head : α} {taken : List α} (rest : List α) (full : taken.length = arity head) :
    frames arity (head :: (taken ++ rest)) = (head, taken) :: frames arity rest := by
  rw [frames, ← full, List.take_left, List.drop_left]

theorem frames_singleton (head : α) : frames arity [head] = [(head, [])] := by
  rw [frames, List.take_nil, List.drop_nil, frames]

theorem Whole.frames_append {piece : List α} (whole : Whole arity piece) (rest : List α) :
    frames arity (piece ++ rest) = frames arity piece ++ frames arity rest := by
  induction whole with
  | nil => rw [List.nil_append, frames, List.nil_append]
  | cons full whole ih =>
    rw [List.cons_append, List.append_assoc, frames_cons _ full, frames_cons _ full, ih,
      List.cons_append]

theorem frames_flatten {pieces : List (List α)} (whole : ∀ piece ∈ pieces.dropLast, Whole arity piece) :
    frames arity pieces.flatten = pieces.flatMap (frames arity) := by
  induction pieces with
  | nil => rw [List.flatten_nil, frames, List.flatMap_nil]
  | cons piece rest ih =>
    cases rest with
    | nil => simp
    | cons next later =>
      rw [List.dropLast_cons_cons] at whole
      have later := ih fun other member => whole other (List.mem_cons_of_mem _ member)
      rw [List.flatten_cons, (whole piece List.mem_cons_self).frames_append, later]
      rfl

theorem whole_singleton {head : α} (bare : arity head = 0) : Whole arity [head] :=
  @Whole.cons _ _ _ [] _ bare.symm .nil

theorem whole_pair {head taken : α} (one : arity head = 1) : Whole arity [head, taken] :=
  @Whole.cons _ _ _ [taken] _ one.symm .nil

theorem whole_bare_pair {head next : α} (bare : arity head = 0) (other : arity next = 0) :
    Whole arity [head, next] :=
  @Whole.cons _ _ _ [] _ bare.symm (whole_singleton other)

end Framing

end Surch.Lib
