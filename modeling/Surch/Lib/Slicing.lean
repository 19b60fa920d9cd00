import Mathlib.Data.List.Basic
import Mathlib.Data.List.Range
import Mathlib.Data.List.Pairwise
import Mathlib.Data.List.Flatten

/-! Pages of a list by position. A page may be cut before or after a selection exactly when the
selection keeps everything in front of what it keeps. -/
namespace Surch.Lib.Slicing

variable {α β : Type}

def slice (start size : Nat) (items : List α) : List α := (items.drop start).take size

/- Nothing that is selected stands behind something that is not. -/
def HolesLast (f : α → Option β) (items : List α) : Prop :=
  items.Pairwise fun x y => (f y).isSome = true → (f x).isSome = true

/- Pages that are the slices of a list: together they are the list, and nothing follows a page that
is not full. -/
structure Paged (pages : Nat → Nat → Option (List α)) (items : List α) : Prop where
  slices : ∀ start size, pages start size = some (slice start size items)
  partition : ∀ size count, items.length ≤ count * size →
    ((List.range count).mapM fun page => pages (page * size) size).map List.flatten = some items
  short : ∀ start size page, pages start size = some page → page.length < size →
    ∀ later more, start + size ≤ later → pages later more = some []

theorem filterMap_eq_nil_of_holesLast {f : α → Option β} {x : α} {rest : List α}
    (last : HolesLast f (x :: rest)) (hole : f x = none) : rest.filterMap f = [] := by
  rw [List.filterMap_eq_nil_iff]
  intro y member
  by_contra kept
  have before := (List.pairwise_cons.mp last).1 y member (Option.isSome_iff_ne_none.mpr kept)
  rw [hole] at before
  cases before

theorem filterMap_slice {f : α → Option β} {items : List α} (last : HolesLast f items)
    (start size : Nat) : (slice start size items).filterMap f = slice start size (items.filterMap f) := by
  induction items generalizing start size with
  | nil => simp [slice]
  | cons x rest ih =>
    have later := ih (List.pairwise_cons.mp last).2
    cases found : f x with
    | none =>
      have nothing := filterMap_eq_nil_of_holesLast last found
      have all : (x :: rest).filterMap f = [] := by rw [List.filterMap_cons, found, nothing]
      have slice_all : (slice start size (x :: rest)).filterMap f = [] := by
        rw [List.filterMap_eq_nil_iff] at all ⊢
        intro y member
        exact all y (List.mem_of_mem_drop (List.mem_of_mem_take member))
      rw [slice_all, all, slice, List.drop_nil, List.take_nil]
    | some y =>
      rw [List.filterMap_cons, found]
      cases start with
      | succ start => exact later start size
      | zero =>
        cases size with
        | zero => simp [slice]
        | succ size =>
          have here := later 0 size
          simp only [slice, List.drop_zero] at here ⊢
          rw [List.take_succ_cons, List.filterMap_cons, found, List.take_succ_cons, here]

theorem holesLast_of_slices {f : α → Option β} {items : List α}
    (slices : ∀ start size, (slice start size items).filterMap f =
      slice start size (items.filterMap f)) : HolesLast f items := by
  induction items with
  | nil => exact .nil
  | cons x rest ih =>
    refine List.pairwise_cons.mpr ⟨?_, ?_⟩
    · intro y member kept
      by_contra hole
      rw [Bool.not_eq_true, Option.isSome_eq_false_iff, Option.isNone_iff_eq_none] at hole
      have first := slices 0 1
      rw [List.filterMap_cons, hole] at first
      -- the first page is empty, so that nothing is selected at all
      have nothing : rest.filterMap f = [] := by
        cases whole : rest.filterMap f with
        | nil => rfl
        | cons z zs => simp [slice, hole, whole] at first
      rw [List.filterMap_eq_nil_iff] at nothing
      rw [nothing y member] at kept
      cases kept
    · cases found : f x with
      | none =>
        have all : ∀ size, slice 0 size (rest.filterMap f) =
            (slice 0 size (x :: rest)).filterMap f := by
          intro size
          rw [slices 0 size, List.filterMap_cons, found]
        have nothing : rest.filterMap f = [] := by
          cases whole : rest.filterMap f with
          | nil => rfl
          | cons z zs =>
            have one := all 1
            simp [slice, found, whole] at one
        rw [List.filterMap_eq_nil_iff] at nothing
        refine List.pairwise_of_forall_mem_list ?_
        intro y _ z member kept
        rw [nothing z member] at kept
        cases kept
      | some y =>
        apply ih
        intro start size
        have shifted := slices (start + 1) size
        rw [List.filterMap_cons, found] at shifted
        exact shifted

theorem flatten_slices (items : List α) (size count : Nat) :
    ((List.range count).map fun page => slice (page * size) size items).flatten =
      items.take (count * size) := by
  induction count with
  | zero => simp
  | succ count ih =>
    rw [List.range_succ, List.map_append, List.flatten_append, ih, Nat.succ_mul, List.take_add]
    simp [slice]

theorem slice_eq_nil_of_short {items : List α} {start size later : Nat} (more : Nat)
    (short : (slice start size items).length < size) (behind : start + size ≤ later) :
    slice later more items = [] := by
  rw [slice, List.length_take, List.length_drop] at short
  rw [slice, List.drop_eq_nil_of_le (by omega), List.take_nil]

theorem paged_of_slices {pages : Nat → Nat → Option (List α)} {items : List α}
    (slices : ∀ start size, pages start size = some (slice start size items)) :
    Paged pages items where
  slices := slices
  partition size count enough := by
    have each : (fun page => pages (page * size) size) =
        fun page => some (slice (page * size) size items) := funext fun page => slices _ _
    have all : ((List.range count).mapM fun page => some (slice (page * size) size items)) =
        some ((List.range count).map fun page => slice (page * size) size items) :=
      List.mapM_pure
    rw [each, all, Option.map_some, flatten_slices, List.take_of_length_le enough]
  short start size page found short later more behind := by
    rw [slices, Option.some.injEq] at found
    subst found
    rw [slices, slice_eq_nil_of_short more short behind]

end Surch.Lib.Slicing
