import Surch.Lib.SortedMap
import Mathlib.Data.List.Dedup

/-! Interning: every value of a list is found under its place, and a value the list does not have
takes the next one. -/
namespace Surch.Lib

variable {V : Type} [LinearOrder V]

def Indexes (index : SortedMap V Nat) (values : List V) : Prop :=
  ∀ value place, index.get? value = some place ↔ values[place]? = some value

namespace Indexes

variable {index : SortedMap V Nat} {values : List V} {value : V}

theorem empty : Indexes (SortedMap.empty : SortedMap V Nat) [] := by
  intro value place
  simp

theorem nodup (indexes : Indexes index values) : values.Nodup := by
  rw [List.nodup_iff_getElem?_ne_getElem?]
  intro i j less inside same
  have at_j := List.getElem?_eq_getElem inside
  have first := (indexes _ i).mpr (same.trans at_j)
  have second := (indexes _ j).mpr at_j
  have places : i = j := Option.some.inj (first.symm.trans second)
  omega

theorem not_mem (indexes : Indexes index values) (missing : index.get? value = none) :
    value ∉ values := by
  intro member
  obtain ⟨place, inside, rfl⟩ := List.getElem_of_mem member
  have found := (indexes _ place).mpr (List.getElem?_eq_getElem inside)
  cases missing.symm.trans found

theorem snoc (indexes : Indexes index values) (missing : index.get? value = none) :
    Indexes (index.upsert value fun _ => values.length) (values ++ [value]) := by
  have fresh := indexes.not_mem missing
  intro other place
  rw [SortedMap.get?_upsert]
  by_cases same : other = value
  · subst same
    rw [if_pos rfl, Option.some_inj]
    constructor
    · rintro rfl
      simp
    · intro found
      obtain ⟨inside, at_place⟩ := List.getElem?_eq_some_iff.mp found
      by_contra distinct
      have before : place < values.length := by
        simp only [List.length_append, List.length_singleton] at inside
        omega
      rw [List.getElem_append_left before] at at_place
      exact fresh (at_place ▸ List.getElem_mem before)
  · rw [if_neg same, indexes other place]
    constructor
    · intro found
      rw [List.getElem?_append_left (List.getElem?_eq_some_iff.mp found).1]
      exact found
    · intro found
      by_cases before : place < values.length
      · rwa [List.getElem?_append_left before] at found
      · rw [List.getElem?_append_right (not_lt.mp before)] at found
        have last := List.mem_of_getElem? found
        exact absurd (List.mem_singleton.mp last) same

theorem length_le (indexes : Indexes index values) {all : List V}
    (within : ∀ value ∈ values, value ∈ all) : values.length ≤ all.length :=
  (List.subperm_of_subset indexes.nodup within).length_le

end Indexes

end Surch.Lib
