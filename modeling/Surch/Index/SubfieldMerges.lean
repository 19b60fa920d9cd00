import Surch.Index.SubfieldReads
import Surch.Lib.Interning

/-! The two ways of merging one sub-field path against the values the segments of the run have. The
streamed merge remaps codes and appends them source by source; the resident one interns every value
anew. -/
namespace Surch.Index
open Surch.Lib Surch.Postings

def SubfieldSource.value (source : SubfieldSource) (docId : Nat) : Option String :=
  source.column.bind fun given => (given.materialized source.store).get docId

def ownValue : List SubfieldSource → Nat → Option String
  | [], _ => none
  | source :: run, docId =>
    if docId < source.docCount then source.value docId else ownValue run (docId - source.docCount)

def totalDocs (run : List SubfieldSource) : Nat := (run.map SubfieldSource.docCount).sum

@[simp] theorem totalDocs_nil : totalDocs [] = 0 := rfl

@[simp] theorem totalDocs_cons (source : SubfieldSource) (run : List SubfieldSource) :
    totalDocs (source :: run) = source.docCount + totalDocs run := List.sum_cons

theorem ownValue_past {run : List SubfieldSource} {docId : Nat} (past : totalDocs run ≤ docId) :
    ownValue run docId = none := by
  induction run generalizing docId with
  | nil => rfl
  | cons source run ih =>
    rw [totalDocs_cons] at past
    rw [ownValue, if_neg (by omega)]
    exact ih (by omega)

theorem getElem?_of_append {first second : List String} (extended : first <+: second) {i : Nat}
    {value : String} (found : first[i]? = some value) : second[i]? = some value := by
  obtain ⟨more, rfl⟩ := extended
  rw [List.getElem?_append_left (List.getElem?_eq_some_iff.mp found).1]
  exact found

theorem valueOf_extended {first second : List String} (extended : first <+: second) {code : Nat}
    (sound : code = SubfieldColumn.absent ∨ code < first.length) :
    valueOf second code = valueOf first code := by
  rcases sound with rfl | inside
  · simp
  · have found := List.getElem?_eq_getElem inside
    simp only [valueOf, found, getElem?_of_append extended found]

namespace SubfieldColumn

section Interning

variable {column : SubfieldColumn}

theorem intern_extends (column : SubfieldColumn) (value : String) :
    column.dict <+: (column.intern value).2.dict := by
  cases found : column.internIndex.get? value with
  | some code => simp [intern, found]
  | none => simp [intern, found]

theorem intern_spec (indexes : Indexes column.internIndex column.dict)
    (small : column.dict.length < 2 ^ 32) (value : String) :
    Indexes (column.intern value).2.internIndex (column.intern value).2.dict ∧
      (column.intern value).2.dict[(column.intern value).1]? = some value ∧
      (∀ other ∈ (column.intern value).2.dict, other ∈ column.dict ∨ other = value) ∧
      (column.intern value).2.codes = column.codes := by
  cases found : column.internIndex.get? value with
  | some code =>
    have place := (indexes value code).mp found
    simp only [intern, found]
    exact ⟨indexes, place, fun other member => .inl member, trivial⟩
  | none =>
    have next := indexes.snoc found
    simp only [intern, found, Nat.mod_eq_of_lt small]
    exact ⟨next, by simp, by simp, trivial⟩

theorem internAll_extends (column : SubfieldColumn) (values : List String) :
    column.dict <+: (column.internAll values).2.dict := by
  induction values generalizing column with
  | nil => exact List.prefix_refl _
  | cons value values ih => exact (intern_extends column value).trans (ih _)

/-- Each value gets the code of its place in the dictionary all of them end up in. -/
theorem internAll_spec (indexes : Indexes column.internIndex column.dict) {values : List String}
    (small : (column.internAll values).2.dict.length < 2 ^ 32) :
    Indexes (column.internAll values).2.internIndex (column.internAll values).2.dict ∧
      List.Forall₂ (fun value code => (column.internAll values).2.dict[code]? = some value)
        values (column.internAll values).1 := by
  induction values generalizing column with
  | nil => exact ⟨indexes, .nil⟩
  | cons value values ih =>
    have before := ((internAll_extends column (value :: values)).length_le).trans_lt small
    obtain ⟨indexes', place, -, -⟩ := intern_spec indexes before value
    obtain ⟨final, places⟩ := ih indexes' small
    exact ⟨final, .cons (getElem?_of_append (internAll_extends _ values) place) places⟩

end Interning

section Resident

/- A column that answers the documents below `bound`, with values that `all` has. -/
structure Gathers (all : List String) (values : Nat → Option String) (bound : Nat)
    (column : SubfieldColumn) : Prop where
  indexes : Indexes column.internIndex column.dict
  sound : ∀ code ∈ column.codes, code = absent ∨ code < column.dict.length
  within : ∀ value ∈ column.dict, value ∈ all
  answers : ∀ docId, column.get docId = if docId < bound then values docId else none

variable {all : List String} {values : Nat → Option String} {bound : Nat} {column : SubfieldColumn}

theorem Gathers.skip (gathers : Gathers all values bound column) (missing : values bound = none) :
    Gathers all values (bound + 1) column :=
  { gathers with
    answers := by
      intro docId
      rw [gathers.answers]
      by_cases here : docId = bound
      · simp [here, missing]
      · have same : docId < bound + 1 ↔ docId < bound := by omega
        simp [same] }

theorem Gathers.set (gathers : Gathers all values bound column) (few : all.length ≤ maxU32)
    {value : String} (present : values bound = some value) (listed : value ∈ all) :
    Gathers all values (bound + 1) (column.set bound value) := by
  have small : column.dict.length < 2 ^ 32 := by
    have most := gathers.indexes.length_le gathers.within
    simp only [maxU32] at few
    omega
  obtain ⟨indexes, place, added, codes⟩ := intern_spec gathers.indexes small value
  have extended := intern_extends column value
  have within : ∀ other ∈ (column.intern value).2.dict, other ∈ all := by
    intro other member
    rcases added other member with before | rfl
    · exact gathers.within other before
    · exact listed
  have below := (List.getElem?_eq_some_iff.mp place).1
  have most := indexes.length_le within
  have coded : (column.intern value).1 ≠ absent := by
    simp only [absent]
    omega
  have sound : ∀ code ∈ column.codes,
      code = absent ∨ code < (column.intern value).2.dict.length := by
    intro code member
    rcases gathers.sound code member with missing | inside
    · exact .inl missing
    · exact .inr (inside.trans_le extended.length_le)
  constructor
  · exact indexes
  · intro code member
    rcases mem_writeAt member with before | rfl | rfl
    · exact sound code (codes ▸ before)
    · exact .inl rfl
    · exact .inr below
  · exact within
  · intro docId
    have read : (column.set bound value).get docId = valueOf (column.intern value).2.dict
        (if docId = bound then (column.intern value).1 else column.codes.getD docId absent) := by
      rw [get_eq, ← getD_writeAt, ← codes]
      rfl
    rw [read]
    by_cases here : docId = bound
    · simp [here, valueOf, coded, place, present]
    · have same : docId < bound + 1 ↔ docId < bound := by omega
      have kept : valueOf (column.intern value).2.dict (column.codes.getD docId absent) =
          column.get docId := by
        rw [get_eq]
        apply valueOf_extended extended
        rcases getD_mem absent column.codes docId with missing | member
        · exact .inl missing
        · exact gathers.sound _ member
      rw [if_neg here, kept, gathers.answers]
      simp [same]

theorem Gathers.empty (all : List String) (values : Nat → Option String) :
    Gathers all values 0 .default where
  indexes := Indexes.empty
  sound code member := by simp [default] at member
  within value member := by simp [default] at member
  answers docId := by simp [get, default]

theorem Gathers.skipAll (gathers : Gathers all values bound column) {count : Nat}
    (missing : ∀ docId < count, values (bound + docId) = none) :
    Gathers all values (bound + count) column := by
  induction count with
  | zero => exact gathers
  | succ count ih =>
    have before := ih fun docId early => missing docId (by omega)
    exact before.skip (missing count (by omega))

theorem Gathers.source (gathers : Gathers all values bound column) (few : all.length ≤ maxU32)
    {source : SubfieldSource} (fits : bound + source.docCount ≤ 2 ^ 32)
    (owned : ∀ docId < source.docCount, values (bound + docId) = source.value docId)
    (listed : ∀ docId < source.docCount, ∀ value, source.value docId = some value → value ∈ all) :
    Gathers all values (bound + source.docCount) (mergeSourceResident column source bound) := by
  cases found : source.column with
  | none =>
    simp only [mergeSourceResident, found]
    apply gathers.skipAll
    intro docId inside
    rw [owned docId inside, SubfieldSource.value, found, Option.bind_none]
  | some given =>
    have answers : ∀ docId, source.value docId = (given.materialized source.store).get docId := by
      simp [SubfieldSource.value, found]
    simp only [mergeSourceResident, found]
    generalize counted : source.docCount = count at fits owned listed ⊢
    clear counted
    induction count with
    | zero => exact gathers
    | succ count ih =>
      have before := ih (by omega) (fun docId early => owned docId (by omega))
        (fun docId early => listed docId (by omega))
      have own := owned count (by omega)
      rw [List.range_succ, List.foldl_append, List.foldl_cons, List.foldl_nil, ← answers,
        Nat.mod_eq_of_lt (by omega)]
      cases value_eq : source.value count with
      | none => exact before.skip (own.trans value_eq)
      | some value =>
        exact before.set few (own.trans value_eq) (listed count (by omega) value value_eq)

end Resident

end SubfieldColumn

section ResidentRun

open SubfieldColumn

def runValues (run : List SubfieldSource) : List String :=
  (List.range (totalDocs run)).filterMap (ownValue run)

theorem mem_runValues {run : List SubfieldSource} {docId : Nat} {value : String}
    (found : ownValue run docId = some value) : value ∈ runValues run := by
  apply List.mem_filterMap.mpr
  refine ⟨docId, List.mem_range.mpr ?_, found⟩
  by_contra past
  rw [ownValue_past (not_lt.mp past)] at found
  cases found

theorem runValues_length_le (run : List SubfieldSource) :
    (runValues run).length ≤ totalDocs run := by
  have most := List.length_filterMap_le (ownValue run) (List.range (totalDocs run))
  simpa [runValues] using most

theorem SubfieldColumn.Gathers.run {all : List String} {values : Nat → Option String} {bound : Nat}
    {column : SubfieldColumn} (gathers : Gathers all values bound column)
    (few : all.length ≤ maxU32) {run : List SubfieldSource}
    (fits : bound + totalDocs run < 2 ^ 32)
    (owned : ∀ docId, values (bound + docId) = ownValue run docId)
    (listed : ∀ docId value, ownValue run docId = some value → value ∈ all) :
    Gathers all values (bound + totalDocs run) (run.foldl
      (fun (column, runOffset) source => (mergeSourceResident column source runOffset,
        (runOffset + source.docCount) % 2 ^ 32)) (column, bound)).1 := by
  induction run generalizing bound column with
  | nil => exact gathers
  | cons source run ih =>
    rw [totalDocs_cons] at fits
    have own : ∀ docId < source.docCount, ownValue (source :: run) docId = source.value docId :=
      fun docId inside => if_pos inside
    have later : ∀ docId, ownValue (source :: run) (source.docCount + docId) = ownValue run docId := by
      intro docId
      rw [ownValue, if_neg (by omega), Nat.add_sub_cancel_left]
    have first := gathers.source few (by omega)
      (fun docId inside => (owned docId).trans (own docId inside))
      (fun docId inside value found => listed docId value ((own docId inside).trans found))
    have rest := ih first (by omega)
      (fun docId => by rw [Nat.add_assoc, owned, later])
      (fun docId value found => listed (source.docCount + docId) value ((later docId).trans found))
    have next : (bound + source.docCount) % 2 ^ 32 = bound + source.docCount :=
      Nat.mod_eq_of_lt (by omega)
    simp only [List.foldl_cons, next, totalDocs_cons, ← Nat.add_assoc]
    exact rest

/-- The resident merge answers every document of the run with its own segment's value. -/
theorem mergeSubfieldColumnResident_get {run : List SubfieldSource} (fits : totalDocs run < 2 ^ 32)
    (docId : Nat) : (mergeSubfieldColumnResident run).get docId = ownValue run docId := by
  have few : (runValues run).length ≤ maxU32 := by
    have most := runValues_length_le run
    simp only [maxU32]
    omega
  have gathered := (Gathers.empty (runValues run) (ownValue run)).run few
    (by simpa using fits) (by simp) (fun _ _ found => mem_runValues found)
  rw [mergeSubfieldColumnResident, gathered.answers]
  split
  · rfl
  · rename_i past
    rw [ownValue_past (by omega)]

end ResidentRun

end Surch.Index
