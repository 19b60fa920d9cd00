import Surch.Lib.Bytes
import Surch.Lib.Chunks
import Surch.Lib.Column
import Surch.Lib.SortedMap
import Surch.Postings.Builder
import Surch.Postings.Segment

/-! `SubfieldColumn`: the projected values of one sub-field path as codes into a dictionary,
resident while a segment is written and spilled to the segment's file when it is sealed, and the
two ways of merging such columns. -/
namespace Surch.Index
open Surch.Lib Surch.Postings

/- The file of a segment's spilled columns is written and read like a postings segment. -/
abbrev SubfieldSegment := PostingsSegment

structure SubfieldColumnDisk where
  dictOffsetsBase : Nat
  dictLen : Nat
  dictBytesBase : Nat
  dictBytesLen : Nat
  codesBase : Nat
  codesLen : Nat
deriving DecidableEq, Repr

structure SubfieldColumn where
  dict : List String
  codes : List Nat
  internIndex : SortedMap String Nat
  disk : Option SubfieldColumnDisk
deriving DecidableEq

def utf8 (value : String) : List UInt8 := value.toByteArray.data.toList

def fromUtf8 (bytes : List UInt8) : Option String := String.fromUTF8? ⟨bytes.toArray⟩

@[simp] theorem fromUtf8_utf8 (s : String) : fromUtf8 (utf8 s) = some s := by
  unfold fromUtf8 utf8 String.fromUTF8?
  rw [Array.toArray_toList, dif_pos s.isValidUTF8]
  rfl

theorem utf8_inj {s t : String} (same : utf8 s = utf8 t) : s = t := by
  have both := congrArg fromUtf8 same
  rw [fromUtf8_utf8, fromUtf8_utf8] at both
  exact Option.some.inj both

theorem fromUtf8_eq_some_iff {bytes : List UInt8} {s : String} :
    fromUtf8 bytes = some s ↔ bytes = utf8 s := by
  constructor
  · intro read
    unfold fromUtf8 String.fromUTF8? at read
    obtain ⟨valid, same⟩ := Option.dite_none_right_eq_some.mp read
    cases same
    rfl
  · rintro rfl
    exact fromUtf8_utf8 s

theorem utf8_eq_flatMap (value : String) :
    utf8 value = value.toList.flatMap String.utf8EncodeChar := by
  have bytes : value.toByteArray = value.toList.utf8Encode := by
    rw [← String.toByteArray_ofList, String.ofList_toList]
  rw [utf8, bytes, List.utf8Encode]
  simp

def maxU32 : Nat := 2 ^ 32 - 1

/- The offsets of the dictionary's values, in saturating arithmetic. -/
def dictOffsets (dict : List String) : List Nat :=
  dict.scanl (fun offset value => saturatingAddU32 offset (value.utf8ByteSize % 2 ^ 32)) 0

def dictBytes (dict : List String) : List UInt8 := dict.flatMap utf8

def dictTotalBytes (dict : List String) : Nat := (dict.map String.utf8ByteSize).sum

def encodeU32s (values : List Nat) : List UInt8 := values.flatMap (leBytes 4)

def decodeU32s (bytes : List UInt8) : List Nat :=
  ((chunks 4 bytes).filter fun chunk => chunk.length = 4).map leNat

namespace SubfieldColumn

def absent : Nat := maxU32

def default : SubfieldColumn := ⟨[], [], .empty, none⟩

/- A new value takes the next code, cast to `u32`. -/
def intern (column : SubfieldColumn) (value : String) : Nat × SubfieldColumn :=
  match column.internIndex.get? value with
  | some code => (code, column)
  | none =>
    let code := column.dict.length % 2 ^ 32
    (code, { column with
      dict := column.dict ++ [value]
      internIndex := column.internIndex.upsert value fun _ => code })

def set (column : SubfieldColumn) (docId : Nat) (value : String) : SubfieldColumn :=
  let (code, column) := column.intern value
  { column with codes := writeAt absent column.codes docId code }

/- Indexing the dictionary would panic where it gives none. -/
def get (column : SubfieldColumn) (docId : Nat) : Option String := do
  let code ← column.codes[docId]?
  if code = absent then none else column.dict[code]?

def iter (column : SubfieldColumn) : List (Nat × String) :=
  column.codes.zipIdx.filterMap fun (_, docId) => (column.get docId).map fun value => (docId, value)

def finalize (column : SubfieldColumn) : SubfieldColumn := { column with internIndex := .empty }

/- One append of offsets, bytes and codes. A column that is spilled, empty, or too large for the
descriptor stays as it is, as does one whose append fails. -/
def spill (column : SubfieldColumn) (store : SubfieldSegment) :
    Bool × SubfieldColumn × SubfieldSegment :=
  if column.disk.isSome ∨ column.dict = [] then (false, column, store)
  else if dictTotalBytes column.dict > maxU32 ∨ column.dict.length ≥ maxU32 / 4 ∨
      column.codes.length > maxU32 / 4 then
    (false, column, store)
  else
    let offsets := encodeU32s (dictOffsets column.dict)
    let bytes := dictBytes column.dict
    match store.append (offsets ++ bytes ++ encodeU32s column.codes) with
    | (none, store) => (false, column, store)
    | (some base, store) =>
      (true,
        { column with
          disk := some
            { dictOffsetsBase := base
              dictLen := column.dict.length
              dictBytesBase := base + offsets.length
              dictBytesLen := bytes.length
              codesBase := base + offsets.length + bytes.length
              codesLen := column.codes.length }
          dict := []
          codes := [] },
        store)

def readSpilledDict (disk : SubfieldColumnDisk) (store : SubfieldSegment) : Option (List String) :=
  if (disk.dictLen + 1) * 4 ≥ 2 ^ 32 then none
  else do
    let offsetsBytes ← store.read disk.dictOffsetsBase ((disk.dictLen + 1) * 4)
    let bytes ← store.read disk.dictBytesBase disk.dictBytesLen
    let offsets := decodeU32s offsetsBytes
    (offsets.zip offsets.tail).mapM fun (start, ending) =>
      if start ≤ ending ∧ ending ≤ bytes.length then
        fromUtf8 ((bytes.drop start).take (ending - start))
      else none

/- The byte length of the codes saturates at the largest `u32`. -/
def readSpilledCodes (disk : SubfieldColumnDisk) (store : SubfieldSegment) : Option (List Nat) := do
  let codesBytes ← store.read disk.codesBase (min (disk.codesLen * 4) maxU32)
  return decodeU32s codesBytes

def readSpilled (disk : SubfieldColumnDisk) (store : SubfieldSegment) : Option SubfieldColumn := do
  let dict ← readSpilledDict disk store
  let codes ← readSpilledCodes disk store
  return ⟨dict, codes, .empty, none⟩

/- A spilled column is read back whole, or stands for an empty one when that fails. -/
def materialized (column : SubfieldColumn) (store : Option SubfieldSegment) : SubfieldColumn :=
  match column.disk with
  | none => column
  | some disk => (store.bind (readSpilled disk)).getD default

def dictOnly (column : SubfieldColumn) (store : Option SubfieldSegment) : Option (List String) :=
  match column.disk with
  | none => some column.dict
  | some disk => store.bind (readSpilledDict disk)

def codesOnly (column : SubfieldColumn) (store : Option SubfieldSegment) : Option (List Nat) :=
  match column.disk with
  | none => some column.codes
  | some disk => store.bind (readSpilledCodes disk)

def internAll (column : SubfieldColumn) : List String → List Nat × SubfieldColumn
  | [] => ([], column)
  | value :: values =>
    let (code, column) := column.intern value
    let (codes, column) := column.internAll values
    (code :: codes, column)

end SubfieldColumn

structure SubfieldSource where
  column : Option SubfieldColumn
  store : Option SubfieldSegment
  docCount : Nat

def mergeSourceResident (column : SubfieldColumn) (source : SubfieldSource) (runOffset : Nat) :
    SubfieldColumn :=
  match source.column with
  | none => column
  | some given =>
    let materialized := given.materialized source.store
    (List.range source.docCount).foldl
      (fun column docId =>
        match materialized.get docId with
        | none => column
        | some value => column.set ((runOffset + docId) % 2 ^ 32) value)
      column

def mergeSubfieldColumnResident (run : List SubfieldSource) : SubfieldColumn :=
  (run.foldl
    (fun (column, runOffset) source =>
      (mergeSourceResident column source runOffset, (runOffset + source.docCount) % 2 ^ 32))
    (SubfieldColumn.default, 0)).1

/- The dictionary pass: the union of the dictionaries, and for each source what its codes become. -/
def unionDicts (column : SubfieldColumn) :
    List SubfieldSource → Option (List (Option (List Nat)) × SubfieldColumn)
  | [] => some ([], column)
  | source :: rest =>
    match source.column with
    | none => do
      let (remaps, column) ← unionDicts column rest
      return (none :: remaps, column)
    | some given => do
      let dict ← given.dictOnly source.store
      let (remap, column) := column.internAll dict
      let (remaps, column) ← unionDicts column rest
      return (some remap :: remaps, column)

def writeSubfieldDictHeader (dict : List String) (store : SubfieldSegment) :
    Option (Nat × Nat × Nat) × SubfieldSegment :=
  if dictTotalBytes dict > maxU32 ∨ dict.length ≥ maxU32 / 4 then (none, store)
  else
    let offsets := encodeU32s (dictOffsets dict)
    let bytes := dictBytes dict
    match store.append (offsets ++ bytes) with
    | (none, store) => (none, store)
    | (some base, store) => (some (base, base + offsets.length, bytes.length), store)

/- Exactly `docCount` codes; what has no code in the source has none in the merge. -/
def translateSourceCodes (sourceCodes : List Nat) (docCount : Nat) (remap : List Nat) : List Nat :=
  (List.range docCount).map fun docId =>
    let code := sourceCodes.getD docId SubfieldColumn.absent
    if code = SubfieldColumn.absent then SubfieldColumn.absent
    else remap.getD code SubfieldColumn.absent

def appendCodesChunk (codes : List Nat) (store : SubfieldSegment) : Option Nat × SubfieldSegment :=
  if codes.length > maxU32 / 4 then (none, store) else store.append (encodeU32s codes)

def translatedCodes (source : SubfieldSource) (remap : Option (List Nat)) : Option (List Nat) :=
  match remap, source.column with
  | some remap, some given => do
    let sourceCodes ← given.codesOnly source.store
    return translateSourceCodes sourceCodes source.docCount remap
  | _, _ => some (List.replicate source.docCount SubfieldColumn.absent)

/- The codes pass: one append per source, the first of which gives the base. -/
def appendCodes (store : SubfieldSegment) (codesBase : Option Nat) (codesLen : Nat) :
    List (SubfieldSource × Option (List Nat)) → Option (Option Nat × Nat) × SubfieldSegment
  | [] => (some (codesBase, codesLen), store)
  | (source, remap) :: rest =>
    match translatedCodes source remap with
    | none => (none, store)
    | some translated =>
      match appendCodesChunk translated store with
      | (none, store) => (none, store)
      | (some base, store) =>
        appendCodes store (some (codesBase.getD base)) (codesLen + translated.length) rest

def mergeSubfieldColumnStreamed (run : List SubfieldSource) (store : SubfieldSegment) :
    Option SubfieldColumn × SubfieldSegment :=
  match unionDicts .default run with
  | none => (none, store)
  | some (remaps, dictColumn) =>
    if dictColumn.dict = [] then (none, store)
    else
      match writeSubfieldDictHeader dictColumn.dict store with
      | (none, store) => (none, store)
      | (some (dictOffsetsBase, dictBytesBase, dictBytesLen), store) =>
        match appendCodes store none 0 (run.zip remaps) with
        | (none, store) => (none, store)
        | (some (codesBase, codesLen), store) =>
          if codesLen ≥ 2 ^ 32 then (none, store)
          else
            (some
              { dict := []
                codes := []
                internIndex := .empty
                disk := some
                  { dictOffsetsBase
                    dictLen := dictColumn.dict.length
                    dictBytesBase
                    dictBytesLen
                    codesBase := codesBase.getD (dictBytesBase + dictBytesLen)
                    codesLen } },
              store)

/- One path of a merge: streamed where there is a file and it works, else resident. -/
def mergeSubfieldColumn (run : List SubfieldSource) (store : Option SubfieldSegment) :
    SubfieldColumn × Option SubfieldSegment :=
  match store with
  | none => ((mergeSubfieldColumnResident run).finalize, none)
  | some store =>
    match mergeSubfieldColumnStreamed run store with
    | (some column, store) => (column.finalize, some store)
    | (none, store) => ((mergeSubfieldColumnResident run).finalize, some store)

def sealColumn (state : Option SubfieldSegment × Bool) (column : SubfieldColumn) :
    (Option SubfieldSegment × Bool) × SubfieldColumn :=
  match state.1 with
  | none => (state, column.finalize)
  | some store =>
    let (spilled, column, store) := column.finalize.spill store
    ((some store, state.2 || spilled), column)

def catchUpColumn (state : Option SubfieldSegment × Bool) (column : SubfieldColumn) :
    (Option SubfieldSegment × Bool) × SubfieldColumn :=
  match state.1 with
  | none => (state, column)
  | some store =>
    if column.disk.isSome then ((some store, true), column)
    else if column.dict = [] then (state, column)
    else
      let (spilled, column, store) := column.spill store
      ((some store, state.2 || spilled), column)

end Surch.Index
