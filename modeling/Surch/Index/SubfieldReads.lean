import Surch.Index.Subfields

/-! What a spilled column reads back as: its dictionary, and its codes as far as the length that
is read reaches. -/
namespace Surch.Index
open Surch.Lib Surch.Postings

section Numbers

theorem encodeU32s_length (values : List Nat) : (encodeU32s values).length = 4 * values.length := by
  induction values with
  | nil => rfl
  | cons value values ih =>
    simp only [encodeU32s, List.flatMap_cons, List.length_append, leBytes_length, List.length_cons] at ih ⊢
    omega

theorem encodeU32s_append (first second : List Nat) :
    encodeU32s (first ++ second) = encodeU32s first ++ encodeU32s second := List.flatMap_append

theorem decodeU32s_encodeU32s {values : List Nat} (fits : ∀ value ∈ values, value < 2 ^ 32)
    {tail : List UInt8} (short : tail.length < 4) :
    decodeU32s (encodeU32s values ++ tail) = values := by
  induction values with
  | nil =>
    by_cases empty : tail = []
    · simp [encodeU32s, decodeU32s, empty]
    · have alone : chunks 4 tail = [tail] := by
        simpa using chunks_append (by decide) empty (.inr ⟨short.le, rfl⟩)
      simp [encodeU32s, decodeU32s, alone, short.ne]
  | cons value values ih =>
    obtain ⟨first, rest⟩ := List.forall_mem_cons.mp fits
    have nonempty : leBytes 4 value ≠ [] := List.ne_nil_of_length_pos (by simp)
    have cut : chunks 4 (encodeU32s (value :: values) ++ tail) =
        leBytes 4 value :: chunks 4 (encodeU32s values ++ tail) := by
      simp only [encodeU32s, List.flatMap_cons, List.append_assoc]
      exact chunks_append (by decide) nonempty (.inl (leBytes_length 4 value))
    have decoded := ih rest
    simp only [decodeU32s] at decoded ⊢
    have value_eq : leNat (leBytes 4 value) = value := leNat_leBytes_of_lt first
    simp [cut, decoded, value_eq]

theorem decodeU32s_take {values : List Nat} (fits : ∀ value ∈ values, value < 2 ^ 32) (count : Nat)
    {extra : Nat} (short : extra < 4) :
    decodeU32s ((encodeU32s values).take (4 * count + extra)) = values.take count := by
  have split : encodeU32s values =
      encodeU32s (values.take count) ++ encodeU32s (values.drop count) := by
    rw [← encodeU32s_append, List.take_append_drop]
  have fits' : ∀ value ∈ values.take count, value < 2 ^ 32 :=
    fun value member => fits value (List.mem_of_mem_take member)
  by_cases reached : count ≤ values.length
  · have size : (encodeU32s (values.take count)).length = 4 * count := by
      simp [encodeU32s_length, reached]
    rw [split, ← size, List.take_length_add_append]
    apply decodeU32s_encodeU32s fits'
    simp only [List.length_take]
    omega
  · have all : decodeU32s (encodeU32s values ++ []) = values :=
      decodeU32s_encodeU32s fits (by decide)
    have whole : (encodeU32s values).take (4 * count + extra) = encodeU32s values := by
      apply List.take_of_length_le
      rw [encodeU32s_length]
      omega
    rw [whole, List.take_of_length_le (by omega)]
    simpa using all

end Numbers

section Dictionary

def offsetsFrom (offset : Nat) (dict : List String) : List Nat :=
  dict.scanl (fun offset value => saturatingAddU32 offset (value.utf8ByteSize % 2 ^ 32)) offset

theorem utf8_length (value : String) : (utf8 value).length = value.utf8ByteSize := rfl

theorem dictBytes_length (dict : List String) : (dictBytes dict).length = dictTotalBytes dict := by
  simp [dictBytes, dictTotalBytes, List.length_flatMap, utf8_length]

theorem offsetsFrom_length (offset : Nat) (dict : List String) :
    (offsetsFrom offset dict).length = dict.length + 1 := List.length_scanl

theorem offsetsFrom_cons {offset : Nat} {value : String} {dict : List String}
    (small : offset + dictTotalBytes (value :: dict) ≤ maxU32) :
    offsetsFrom offset (value :: dict) =
      offset :: offsetsFrom (offset + value.utf8ByteSize) dict := by
  simp only [dictTotalBytes, List.map_cons, List.sum_cons, maxU32] at small
  have next : saturatingAddU32 offset (value.utf8ByteSize % 2 ^ 32) =
      offset + value.utf8ByteSize := by
    rw [saturatingAddU32, Nat.mod_eq_of_lt (by omega)]
    omega
  simp only [offsetsFrom, List.scanl_cons, next]

theorem offsetsFrom_fits {offset : Nat} {dict : List String}
    (small : offset + dictTotalBytes dict ≤ maxU32) :
    ∀ entry ∈ offsetsFrom offset dict, entry < 2 ^ 32 := by
  induction dict generalizing offset with
  | nil =>
    simp only [offsetsFrom, List.scanl_nil, List.forall_mem_singleton]
    simp only [maxU32] at small
    omega
  | cons value dict ih =>
    have total : dictTotalBytes (value :: dict) = value.utf8ByteSize + dictTotalBytes dict := by
      simp [dictTotalBytes]
    rw [offsetsFrom_cons small, List.forall_mem_cons]
    rw [total] at small
    simp only [maxU32] at small ⊢
    exact ⟨by omega, ih (by simp only [maxU32]; omega)⟩

theorem slices_offsetsFrom {bytes before : List UInt8} {dict : List String}
    (layout : bytes = before ++ dictBytes dict)
    (small : before.length + dictTotalBytes dict ≤ maxU32) :
    ((offsetsFrom before.length dict).zip (offsetsFrom before.length dict).tail).mapM
      (fun (start, ending) =>
        if start ≤ ending ∧ ending ≤ bytes.length then
          fromUtf8 ((bytes.drop start).take (ending - start))
        else none) = some dict := by
  induction dict generalizing before with
  | nil => simp [offsetsFrom]
  | cons value dict ih =>
    have total : dictTotalBytes (value :: dict) = value.utf8ByteSize + dictTotalBytes dict := by
      simp [dictTotalBytes]
    have split : dictBytes (value :: dict) = utf8 value ++ dictBytes dict := by simp [dictBytes]
    have rest := @ih (before ++ utf8 value) (by simp [layout, split])
      (by simp only [List.length_append, utf8_length]; omega)
    simp only [List.length_append, utf8_length] at rest
    have starts : ∃ later, offsetsFrom (before.length + value.utf8ByteSize) dict =
        (before.length + value.utf8ByteSize) :: later := by
      cases dict with
      | nil => exact ⟨[], rfl⟩
      | cons other dict => exact ⟨_, List.scanl_cons⟩
    obtain ⟨later, starts⟩ := starts
    rw [starts] at rest
    have inside : before.length + value.utf8ByteSize ≤ bytes.length := by
      simp only [layout, split, List.length_append, utf8_length]
      omega
    have piece : (bytes.drop before.length).take value.utf8ByteSize = utf8 value := by
      rw [layout, split, List.drop_left, ← utf8_length, List.take_left]
    rw [offsetsFrom_cons small, starts, List.tail_cons, List.zip_cons_cons, List.mapM_cons]
    simp only [List.tail_cons] at rest
    simp [inside, piece, rest]

end Dictionary

section Values

def valueOf (dict : List String) (code : Nat) : Option String :=
  if code = SubfieldColumn.absent then none else dict[code]?

@[simp] theorem valueOf_absent (dict : List String) : valueOf dict SubfieldColumn.absent = none :=
  if_pos rfl

theorem SubfieldColumn.get_eq (column : SubfieldColumn) (docId : Nat) :
    column.get docId = valueOf column.dict (column.codes.getD docId absent) := by
  cases found : column.codes[docId]? with
  | none => simp [SubfieldColumn.get, found]
  | some code => simp [SubfieldColumn.get, found, valueOf]

theorem SubfieldColumn.get_past {column : SubfieldColumn} {docId : Nat}
    (past : column.codes.length ≤ docId) : column.get docId = none := by
  rw [get_eq, getD_of_length_le past, valueOf_absent]

theorem SubfieldColumn.iter_eq {column : SubfieldColumn} {size : Nat}
    (long : column.codes.length ≤ size) : column.iter =
      (List.range size).filterMap fun docId => (column.get docId).map fun value => (docId, value) := by
  have own : column.iter = (List.range column.codes.length).filterMap fun docId =>
      (column.get docId).map fun value => (docId, value) := by
    have positions : column.codes.zipIdx.map Prod.snd = List.range column.codes.length := by
      rw [List.zipIdx_map_snd, List.range_eq_range']
    rw [← positions, List.filterMap_map]
    rfl
  rw [own]
  induction long with
  | refl => rfl
  | step long ih =>
    have past := get_past long
    simp [List.range_succ, List.filterMap_append, ← ih, past]

theorem SubfieldColumn.iter_congr {first second : SubfieldColumn}
    (same : ∀ docId, first.get docId = second.get docId) : first.iter = second.iter := by
  rw [iter_eq (Nat.le_max_left first.codes.length second.codes.length),
    iter_eq (Nat.le_max_right first.codes.length second.codes.length)]
  simp only [same]

end Values

section Layout

def columnBytes (dict : List String) (codes : List Nat) : List UInt8 :=
  encodeU32s (dictOffsets dict) ++ dictBytes dict ++ encodeU32s codes

structure Describes (disk : SubfieldColumnDisk) (dict : List String) (codesLen : Nat) : Prop where
  dictLen : disk.dictLen = dict.length
  dictBytesBase : disk.dictBytesBase = disk.dictOffsetsBase + 4 * (dict.length + 1)
  dictBytesLen : disk.dictBytesLen = dictTotalBytes dict
  codesBase : disk.codesBase = disk.dictBytesBase + dictTotalBytes dict
  codesLen : disk.codesLen = codesLen

def codesRead : Nat := maxU32 / 4

variable {disk : SubfieldColumnDisk} {dict : List String} {codes : List Nat}
  {store : SubfieldSegment}

theorem offsets_length (dict : List String) :
    (encodeU32s (dictOffsets dict)).length = 4 * (dict.length + 1) := by
  rw [encodeU32s_length]
  exact congrArg (4 * ·) (offsetsFrom_length 0 dict)

theorem columnBytes_ne_nil (dict : List String) (codes : List Nat) :
    columnBytes dict codes ≠ [] := by
  apply List.ne_nil_of_length_pos
  simp only [columnBytes, List.length_append, offsets_length]
  omega

theorem readSpilledDict_eq (described : Describes disk dict codes.length)
    (holds : store.Holds disk.dictOffsetsBase (columnBytes dict codes))
    (readable : ∀ offset length, store.device.reads offset length = true)
    (small : dictTotalBytes dict ≤ maxU32) (few : dict.length < maxU32 / 4) :
    SubfieldColumn.readSpilledDict disk store = some dict := by
  have nonempty := columnBytes_ne_nil dict codes
  have limit : ¬ (disk.dictLen + 1) * 4 ≥ 2 ^ 32 := by
    simp only [described.dictLen, maxU32] at few ⊢
    omega
  have offsets_read : store.read disk.dictOffsetsBase ((disk.dictLen + 1) * 4) =
      some (encodeU32s (dictOffsets dict)) := by
    have whole : columnBytes dict codes =
        [] ++ encodeU32s (dictOffsets dict) ++ (dictBytes dict ++ encodeU32s codes) := by
      simp [columnBytes]
    have read := PostingsSegment.Holds.read_inner (whole ▸ holds) (whole ▸ nonempty) readable
    simpa [offsets_length, described.dictLen, Nat.mul_comm] using read
  have bytes_read : store.read disk.dictBytesBase disk.dictBytesLen = some (dictBytes dict) := by
    have read := PostingsSegment.Holds.read_inner holds nonempty readable
    rwa [offsets_length, dictBytes_length, ← described.dictBytesBase, ← described.dictBytesLen]
      at read
  have small' : 0 + dictTotalBytes dict ≤ maxU32 := by omega
  have decoded : decodeU32s (encodeU32s (dictOffsets dict)) = offsetsFrom 0 dict := by
    have whole := @decodeU32s_encodeU32s _ (offsetsFrom_fits small') [] (by decide)
    rwa [List.append_nil] at whole
  have slices := @slices_offsetsFrom (dictBytes dict) [] dict rfl small'
  simp only [SubfieldColumn.readSpilledDict, if_neg limit, offsets_read, bytes_read, decoded,
    Option.bind_eq_bind, Option.bind_some]
  exact slices

theorem readSpilledCodes_eq (described : Describes disk dict codes.length)
    (holds : store.Holds disk.dictOffsetsBase (columnBytes dict codes))
    (readable : ∀ offset length, store.device.reads offset length = true)
    (fits : ∀ code ∈ codes, code < 2 ^ 32) :
    SubfieldColumn.readSpilledCodes disk store = some (codes.take codesRead) := by
  have nonempty := columnBytes_ne_nil dict codes
  have start : disk.codesBase =
      disk.dictOffsetsBase + (encodeU32s (dictOffsets dict) ++ dictBytes dict).length := by
    rw [described.codesBase, described.dictBytesBase, List.length_append, offsets_length,
      dictBytes_length, Nat.add_assoc]
  have inside : (encodeU32s (dictOffsets dict) ++ dictBytes dict).length +
      min (disk.codesLen * 4) maxU32 ≤ (columnBytes dict codes).length := by
    simp only [columnBytes, List.length_append, encodeU32s_length, described.codesLen]
    omega
  have read := holds.read_part nonempty readable inside
  rw [← start, columnBytes, List.drop_left] at read
  simp only [SubfieldColumn.readSpilledCodes, read, Option.bind_eq_bind, Option.bind_some]
  rw [described.codesLen]
  by_cases all : codes.length ≤ codesRead
  · have length : min (codes.length * 4) maxU32 = 4 * codes.length + 0 := by
      simp only [codesRead, maxU32] at all ⊢
      omega
    rw [length, decodeU32s_take fits _ (by decide), List.take_of_length_le all]
    simp
  · have length : min (codes.length * 4) maxU32 = 4 * codesRead + 3 := by
      simp only [codesRead, maxU32] at all ⊢
      omega
    rw [length, decodeU32s_take fits _ (by decide)]
    rfl

/-- A column spilled under this descriptor is read back with the codes one read reaches. -/
theorem materialized_eq {column : SubfieldColumn} (spilled : column.disk = some disk)
    (described : Describes disk dict codes.length)
    (holds : store.Holds disk.dictOffsetsBase (columnBytes dict codes))
    (readable : ∀ offset length, store.device.reads offset length = true)
    (small : dictTotalBytes dict ≤ maxU32) (few : dict.length < maxU32 / 4)
    (fits : ∀ code ∈ codes, code < 2 ^ 32) :
    column.materialized (some store) = ⟨dict, codes.take codesRead, .empty, none⟩ := by
  have values := readSpilledDict_eq described holds readable small few
  have numbers := readSpilledCodes_eq described holds readable fits
  simp [SubfieldColumn.materialized, spilled, SubfieldColumn.readSpilled, values, numbers]

end Layout

end Surch.Index
