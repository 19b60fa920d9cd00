import Mathlib.Algebra.GroupWithZero.Nat
import Mathlib.Data.List.Basic
import Mathlib.Order.Nat

/-! Pieces laid end to end: each starts where the one before it stops. -/
namespace Surch.Lib

variable {α : Type} (start size : α → Nat)

/- The pieces cover the positions from `first` to `last`, in order and without gaps. -/
def Tiles (first last : Nat) : List α → Prop
  | [] => first = last
  | piece :: rest => start piece = first ∧ Tiles (first + size piece) last rest

variable {start size} {first middle last : Nat}

theorem tiles_append {pieces more : List α} :
    Tiles start size first last (pieces ++ more) ↔
      ∃ middle, Tiles start size first middle pieces ∧ Tiles start size middle last more := by
  induction pieces generalizing first with
  | nil => simp [Tiles]
  | cons piece pieces ih =>
    rw [List.cons_append]
    simp only [Tiles, ih]
    constructor
    · rintro ⟨here, middle, left, right⟩
      exact ⟨middle, ⟨here, left⟩, right⟩
    · rintro ⟨middle, ⟨here, left⟩, right⟩
      exact ⟨here, middle, left, right⟩

theorem tiles_map {β : Type} (f : β → α) {pieces : List β} :
    Tiles start size first last (pieces.map f) ↔
      Tiles (fun piece => start (f piece)) (fun piece => size (f piece)) first last pieces := by
  induction pieces generalizing first with
  | nil => rfl
  | cons piece pieces ih => simp only [List.map_cons, Tiles, ih]

namespace Tiles

variable {pieces more : List α}

theorem append (left : Tiles start size first middle pieces)
    (right : Tiles start size middle last more) : Tiles start size first last (pieces ++ more) :=
  tiles_append.mpr ⟨middle, left, right⟩

theorem singleton {piece : α} (here : start piece = first) (stop : first + size piece = last) :
    Tiles start size first last [piece] := ⟨here, stop⟩

theorem le (tiles : Tiles start size first last pieces) : first ≤ last := by
  induction pieces generalizing first with
  | nil => exact Nat.le_of_eq tiles
  | cons piece pieces ih =>
    have := ih tiles.2
    omega

theorem total (tiles : Tiles start size first last pieces) :
    first + (pieces.map size).sum = last := by
  induction pieces generalizing first with
  | nil => exact tiles
  | cons piece pieces ih =>
    have rest := ih tiles.2
    rw [List.map_cons, List.sum_cons]
    omega

theorem inside (tiles : Tiles start size first last pieces) : ∀ piece ∈ pieces,
    first ≤ start piece ∧ start piece + size piece ≤ last := by
  induction pieces generalizing first with
  | nil => simp
  | cons piece pieces ih =>
    intro other member
    have later := tiles.2.le
    rcases List.mem_cons.mp member with rfl | member
    · exact ⟨tiles.1.ge, by rw [tiles.1]; exact later⟩
    · have := ih tiles.2 other member
      omega

theorem disjoint (tiles : Tiles start size first last pieces) :
    pieces.Pairwise fun piece later => start piece + size piece ≤ start later := by
  induction pieces generalizing first with
  | nil => exact .nil
  | cons piece pieces ih =>
    refine List.pairwise_cons.mpr ⟨?_, ih tiles.2⟩
    intro other member
    have := (tiles.2.inside other member).1
    rw [tiles.1]
    exact this

theorem covers (tiles : Tiles start size first last pieces) : ∀ i, first ≤ i → i < last →
    ∃ piece ∈ pieces, start piece ≤ i ∧ i < start piece + size piece := by
  induction pieces generalizing first with
  | nil =>
    intro i low high
    have : first = last := tiles
    omega
  | cons piece pieces ih =>
    intro i low high
    by_cases here : i < first + size piece
    · exact ⟨piece, List.mem_cons_self, by rw [tiles.1]; exact low, by rw [tiles.1]; exact here⟩
    · obtain ⟨other, member, found⟩ := ih tiles.2 i (by omega) high
      exact ⟨other, List.mem_cons_of_mem _ member, found⟩

end Tiles

end Surch.Lib
