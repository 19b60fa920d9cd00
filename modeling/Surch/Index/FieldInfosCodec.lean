import Surch.Index.FieldInfos

/-! Which byte strings are read as a table of fields, and which of them are its encoding. -/
namespace Surch.Index
open Surch.Lib Surch.Lib.Leb128 Surch.Store

section Layout

/- Groups that are read as a length, a count or a number of a field; above the width bits are lost. -/
def SpellsVint (group : List UInt8) (n : Nat) : Prop :=
  Whole group ∧ group.length ≤ 5 ∧ groupNat group % 2 ^ 32 = n ∧ n < 2 ^ 31

def Exact (group : List UInt8) : Prop := Shortest group ∧ groupNat group < 2 ^ 32

structure FieldLayout where
  length : List UInt8
  number : List UInt8
  field : FieldInfo

def FieldLayout.bytes (layout : FieldLayout) : List UInt8 :=
  layout.length ++ (utf8 layout.field.name ++ (layout.number ++
    [indexOptionsToByte layout.field.indexOptions, docValuesTypeToByte layout.field.docValuesType,
      boolToByte layout.field.omitNorms, boolToByte layout.field.storePayloads]))

def FieldLayout.Readable (layout : FieldLayout) : Prop :=
  SpellsVint layout.length (utf8 layout.field.name).length ∧ SpellsVint layout.number layout.field.number

structure TableLayout where
  count : List UInt8
  fields : List FieldLayout
  trailing : List UInt8

def TableLayout.bytes (layout : TableLayout) : List UInt8 :=
  fieldInfosMagic ++ (layout.count ++ (layout.fields.flatMap FieldLayout.bytes ++ layout.trailing))

def TableLayout.infos (layout : TableLayout) : List FieldInfo := layout.fields.map FieldLayout.field

def Distinct (fields : List FieldInfo) : Prop :=
  (fields.map FieldInfo.name).Nodup ∧ (fields.map FieldInfo.number).Nodup

def TableLayout.Readable (layout : TableLayout) : Prop :=
  SpellsVint layout.count layout.fields.length ∧ (∀ field ∈ layout.fields, field.Readable) ∧
    Distinct layout.infos

def TableLayout.Canonical (layout : TableLayout) : Prop :=
  Exact layout.count ∧ (∀ field ∈ layout.fields, Exact field.length ∧ Exact field.number) ∧
    layout.trailing = []

end Layout

section Reading

variable {size : Nat} {input rest : List UInt8}

theorem ofDataIo_ok {α : Type} {reader : Reader DataIoError UInt8 α} {value : α} :
    ofDataIo reader input = .ok (value, rest) ↔ reader input = .ok (value, rest) := by
  exact except_mapError_ok

/- The same check of a number's sign, with the error of its place. -/
def ChecksSign {ε : Type} (check : Int32 → Except ε Nat) : Prop :=
  ∀ value n, check value = .ok n ↔ 0 ≤ value.toInt ∧ value.toInt.toNat = n

theorem checksSign {ε : Type} {error : Int32 → ε} :
    ChecksSign fun value => if 0 ≤ value.toInt then .ok value.toInt.toNat else .error (error value) := by
  intro value n
  beta_reduce
  split
  · exact ⟨fun same => ⟨‹_›, Except.ok.inj same⟩, fun both => congrArg Except.ok both.2⟩
  · exact ⟨nofun, fun both => absurd both.1 ‹_›⟩

theorem readVint_checked {ε : Type} {check : Int32 → Except ε Nat} (checks : ChecksSign check) {n : Nat} :
    (∃ value, DataInput.readVint size input = .ok (value, rest) ∧ check value = .ok n) ↔
      ∃ group, SpellsVint group n ∧ input = group ++ rest := by
  have signed (k : Nat) (small : k < 2 ^ 32) (n : Nat) :
      0 ≤ (UInt32.ofNat k).toInt32.toInt ∧ (UInt32.ofNat k).toInt32.toInt.toNat = n ↔ k = n ∧ n < 2 ^ 31 := by
    have value : (UInt32.ofNat k).toInt32.toInt = if 2 * k < 2 ^ 32 then (k : Int) else k - 2 ^ 32 := by
      have bits := BitVec.toInt_eq_toNat_cond (BitVec.ofNat 32 k)
      rw [BitVec.toNat_ofNat, Nat.mod_eq_of_lt small] at bits
      exact bits
    rw [value]
    split <;> omega
  constructor
  · rintro ⟨value, read, checked⟩
    obtain ⟨k, left, groups, returned⟩ := reader_bind_ok.mp read
    obtain ⟨rfl, rfl⟩ := reader_pure_ok.mp returned
    rcases readGroups_ok (by decide) groups with ⟨group, same, whole, short, rfl⟩ | ⟨-, -, -, -, impossible⟩
    · have small := Nat.mod_lt (groupNat group) (show 0 < 2 ^ 32 by decide)
      obtain ⟨same', bound⟩ := (signed _ small n).mp ((checks _ n).mp checked)
      exact ⟨group, ⟨whole, short, same', bound⟩, same⟩
    · cases impossible
  · rintro ⟨group, ⟨whole, short, value, bound⟩, rfl⟩
    have small := Nat.mod_lt (groupNat group) (show 0 < 2 ^ 32 by decide)
    refine ⟨_, ?_, (checks _ n).mpr ((signed _ small n).mpr ⟨value, bound⟩)⟩
    rw [DataInput.readVint, reader_bind, readGroups_whole whole short (by decide) (by decide),
      Nat.zero_add, Nat.pow_zero, Nat.mul_one]
    rfl

theorem readString_ok {text : String} :
    DataInput.readString size input = .ok (text, rest) ↔
      ∃ length, SpellsVint length (utf8 text).length ∧ input = length ++ (utf8 text ++ rest) := by
  constructor
  · intro read
    obtain ⟨value, left, vint, read₁⟩ := reader_bind_ok.mp read
    obtain ⟨n, left₁, check, read₂⟩ := reader_bind_ok.mp read₁
    obtain ⟨checked, same⟩ := reader_lift_ok.mp check
    subst same
    obtain ⟨length, spelled, rfl⟩ := (readVint_checked checksSign).mp ⟨value, vint, checked⟩
    obtain ⟨bytes, left₂, array, read₃⟩ := reader_bind_ok.mp read₂
    obtain ⟨full, rfl⟩ := readArray_append.mp array
    cases decoded : fromUtf8 bytes with
    | none =>
      rw [decoded] at read₃
      cases read₃
    | some text' =>
      rw [decoded] at read₃
      obtain ⟨rfl, rfl⟩ := reader_pure_ok.mp read₃
      rw [fromUtf8_eq_some_iff] at decoded
      subst decoded full
      exact ⟨length, spelled, rfl⟩
  · rintro ⟨length, spelled, rfl⟩
    obtain ⟨value, vint, checked⟩ := (@readVint_checked size _ (utf8 text ++ rest) _ _
      (@checksSign _ DataIoError.negativeLength) _).mpr ⟨length, spelled, rfl⟩
    refine reader_bind_ok.mpr ⟨value, _, vint, ?_⟩
    refine reader_bind_ok.mpr ⟨_, _, reader_lift_ok.mpr ⟨checked, rfl⟩, ?_⟩
    refine reader_bind_ok.mpr ⟨_, _, readArray_append.mpr ⟨rfl, rfl⟩, ?_⟩
    rw [fromUtf8_utf8]
    rfl

theorem readByte_ok {byte : UInt8} :
    DataInput.readByte size input = .ok (byte, rest) ↔ input = byte :: rest := by
  constructor
  · intro read
    obtain ⟨bytes, left, array, returned⟩ := reader_bind_ok.mp read
    obtain ⟨one, rfl⟩ := readArray_append.mp array
    obtain ⟨rfl, rfl⟩ := reader_pure_ok.mp returned
    obtain ⟨b, rfl⟩ := List.length_eq_one_iff.mp one
    rfl
  · rintro rfl
    exact reader_bind_ok.mpr ⟨[byte], rest, readArray_append.mpr ⟨rfl, rfl⟩, rfl⟩

theorem readTag_ok {α : Type} {fromByte : UInt8 → Except FieldInfosCodecError α} {toByte : α → UInt8}
    (inverse : ∀ byte tag, fromByte byte = .ok tag ↔ byte = toByte tag) {β : Type}
    {next : α → FieldInfosReader β} {out : β × List UInt8} :
    (ofDataIo (DataInput.readByte size) >>= fun byte =>
      (liftM (fromByte byte) : FieldInfosReader α) >>= next) input = .ok out ↔
      ∃ tag left, input = toByte tag :: left ∧ next tag left = .ok out := by
  constructor
  · intro read
    obtain ⟨byte, left, found, read₁⟩ := reader_bind_ok.mp read
    obtain ⟨tag, left₁, looked, read₂⟩ := reader_bind_ok.mp read₁
    obtain ⟨known, rfl⟩ := reader_lift_ok.mp looked
    rw [ofDataIo_ok, readByte_ok] at found
    exact ⟨tag, left₁, (inverse byte tag).mp known ▸ found, read₂⟩
  · rintro ⟨tag, left, rfl, read⟩
    refine reader_bind_ok.mpr ⟨toByte tag, left, ofDataIo_ok.mpr (readByte_ok.mpr rfl), ?_⟩
    exact reader_bind_ok.mpr ⟨tag, left, reader_lift_ok.mpr ⟨(inverse _ tag).mpr rfl, rfl⟩, read⟩

theorem indexOptionsFromByte_ok (byte : UInt8) (tag : IndexOptions) :
    indexOptionsFromByte byte = .ok tag ↔ byte = indexOptionsToByte tag := by
  constructor
  · intro known
    unfold indexOptionsFromByte at known
    repeat' split at known
    all_goals cases known
    all_goals assumption
  · rintro rfl
    cases tag <;> rfl

theorem docValuesTypeFromByte_ok (byte : UInt8) (tag : DocValuesType) :
    docValuesTypeFromByte byte = .ok tag ↔ byte = docValuesTypeToByte tag := by
  constructor
  · intro known
    unfold docValuesTypeFromByte at known
    repeat' split at known
    all_goals cases known
    all_goals assumption
  · rintro rfl
    cases tag <;> rfl

theorem boolFromByte_ok (field : String) (byte : UInt8) (tag : Bool) :
    boolFromByte field byte = .ok tag ↔ byte = boolToByte tag := by
  constructor
  · intro known
    unfold boolFromByte at known
    repeat' split at known
    all_goals cases known
    all_goals assumption
  · rintro rfl
    cases tag <;> rfl

theorem readField_ok {field : FieldInfo} :
    readField size input = .ok (field, rest) ↔
      ∃ layout : FieldLayout, layout.Readable ∧ layout.field = field ∧ input = layout.bytes ++ rest := by
  constructor
  · intro read
    obtain ⟨name, left, text, read₁⟩ := reader_bind_ok.mp read
    obtain ⟨length, named, rfl⟩ := readString_ok.mp (ofDataIo_ok.mp text)
    obtain ⟨value, left₁, vint, read₂⟩ := reader_bind_ok.mp read₁
    obtain ⟨n, left₂, check, read₃⟩ := reader_bind_ok.mp read₂
    obtain ⟨checked, same⟩ := reader_lift_ok.mp check
    subst same
    obtain ⟨number, numbered, rfl⟩ := (readVint_checked checksSign).mp ⟨value, ofDataIo_ok.mp vint, checked⟩
    obtain ⟨options, left₃, rfl, read₄⟩ := (readTag_ok indexOptionsFromByte_ok).mp read₃
    obtain ⟨docValues, left₄, rfl, read₅⟩ := (readTag_ok docValuesTypeFromByte_ok).mp read₄
    obtain ⟨norms, left₅, rfl, read₆⟩ := (readTag_ok (boolFromByte_ok "omit_norms")).mp read₅
    obtain ⟨payloads, left₆, rfl, read₇⟩ := (readTag_ok (boolFromByte_ok "store_payloads")).mp read₆
    obtain ⟨rfl, rfl⟩ := reader_pure_ok.mp read₇
    refine ⟨⟨length, number, _⟩, ⟨named, numbered⟩, rfl, ?_⟩
    simp only [FieldLayout.bytes, List.append_assoc, List.cons_append, List.nil_append]
  · rintro ⟨layout, ⟨named, numbered⟩, rfl, rfl⟩
    simp only [FieldLayout.bytes, List.append_assoc, List.cons_append, List.nil_append]
    refine reader_bind_ok.mpr ⟨_, _, ofDataIo_ok.mpr (readString_ok.mpr ⟨_, named, rfl⟩), ?_⟩
    obtain ⟨value, vint, checked⟩ := (@readVint_checked size _ _ _ _
      (@checksSign _ FieldInfosCodecError.negativeFieldNumber) _).mpr ⟨_, numbered, rfl⟩
    refine reader_bind_ok.mpr ⟨value, _, ofDataIo_ok.mpr vint, ?_⟩
    refine reader_bind_ok.mpr ⟨_, _, reader_lift_ok.mpr ⟨checked, rfl⟩, ?_⟩
    refine (readTag_ok indexOptionsFromByte_ok).mpr ⟨_, _, rfl, ?_⟩
    refine (readTag_ok docValuesTypeFromByte_ok).mpr ⟨_, _, rfl, ?_⟩
    refine (readTag_ok (boolFromByte_ok "omit_norms")).mpr ⟨_, _, rfl, ?_⟩
    exact (readTag_ok (boolFromByte_ok "store_payloads")).mpr ⟨_, _, rfl, rfl⟩

theorem readFields_ok {count : Nat} {fields : List FieldInfo} :
    readFields size count input = .ok (fields, rest) ↔
      ∃ layouts : List FieldLayout, layouts.length = count ∧ (∀ layout ∈ layouts, layout.Readable) ∧
        layouts.map FieldLayout.field = fields ∧ input = layouts.flatMap FieldLayout.bytes ++ rest :=
  readMany_ok readField_ok

end Reading

section Tables

theorem get?_upsert_none {K V : Type} [LinearOrder K] {m : SortedMap K V} {k x : K} {f : Option V → V} :
    (m.upsert k f).get? x = none ↔ x ≠ k ∧ m.get? x = none := by
  rw [SortedMap.get?_upsert]
  split
  · exact iff_of_false nofun fun both => both.1 ‹_›
  · exact (and_iff_right ‹_›).symm

theorem indexFields_ok {position : Nat} {fields : List FieldInfo} {byName : SortedMap String Nat}
    {byNumber : SortedMap Nat Nat} :
    (∃ tables, indexFields position fields byName byNumber = .ok tables) ↔
      Distinct fields ∧ ∀ field ∈ fields, byName.get? field.name = none ∧ byNumber.get? field.number = none := by
  induction fields generalizing position byName byNumber with
  | nil => exact iff_of_true ⟨_, rfl⟩ ⟨⟨.nil, .nil⟩, by simp⟩
  | cons field fields ih =>
    by_cases known : (byName.get? field.name).isSome
    · refine iff_of_false ?_ ?_
      · rintro ⟨tables, indexed⟩
        rw [indexFields, refuse, if_pos known] at indexed
        cases indexed
      · rintro ⟨-, fresh⟩
        rw [(fresh field List.mem_cons_self).1] at known
        cases known
    · by_cases numbered : (byNumber.get? field.number).isSome
      · refine iff_of_false ?_ ?_
        · rintro ⟨tables, indexed⟩
          rw [indexFields, refuse_of_not known, pure_bind, refuse, if_pos numbered] at indexed
          cases indexed
        · rintro ⟨-, fresh⟩
          rw [(fresh field List.mem_cons_self).2] at numbered
          cases numbered
      · rw [indexFields, refuse_of_not known, pure_bind, refuse_of_not numbered, pure_bind, ih]
        rw [Option.not_isSome_iff_eq_none] at known numbered
        simp only [get?_upsert_none, Distinct, List.map_cons, List.nodup_cons, List.mem_map, not_exists, not_and,
          List.forall_mem_cons]
        constructor
        · rintro ⟨⟨names, numbers⟩, fresh⟩
          exact ⟨⟨⟨fun other member => (fresh other member).1.1, names⟩,
            fun other member => (fresh other member).2.1, numbers⟩, ⟨known, numbered⟩,
            fun other member => ⟨(fresh other member).1.2, (fresh other member).2.2⟩⟩
        · rintro ⟨⟨⟨name, names⟩, number, numbers⟩, -, fresh⟩
          exact ⟨⟨names, numbers⟩, fun other member => ⟨⟨name other member, (fresh other member).1⟩,
            number other member, (fresh other member).2⟩⟩

theorem FieldInfos.new_fields {fields : List FieldInfo} {infos : FieldInfos}
    (accepted : FieldInfos.new fields = .ok infos) : infos.fields = fields := by
  unfold FieldInfos.new at accepted
  split at accepted
  · cases accepted
    rfl
  · cases accepted

theorem FieldInfos.eq_of_fields {one other : FieldInfos} (same : one.fields = other.fields) : one = other := by
  obtain ⟨fields, byName, byNumber, built⟩ := one
  obtain ⟨fields', byName', byNumber', built'⟩ := other
  cases same
  rw [built] at built'
  cases built'
  rfl

theorem FieldInfos.new_ok {fields : List FieldInfo} :
    (∃ infos, FieldInfos.new fields = .ok infos) ↔ Distinct fields := by
  have tables := @indexFields_ok 0 fields .empty .empty
  rw [and_iff_left fun _ _ => ⟨SortedMap.get?_empty _, SortedMap.get?_empty _⟩] at tables
  rw [← tables]
  unfold FieldInfos.new
  split
  · exact iff_of_true ⟨_, rfl⟩ ⟨_, ‹_›⟩
  · rename_i error refused
    rw [refused]
    exact iff_of_false nofun nofun

theorem FieldInfos.distinct (infos : FieldInfos) : Distinct infos.fields :=
  (indexFields_ok.mp ⟨_, infos.built⟩).1

theorem FieldInfos.new_self (infos : FieldInfos) : FieldInfos.new infos.fields = .ok infos := by
  obtain ⟨infos', accepted⟩ := FieldInfos.new_ok.mpr infos.distinct
  rw [accepted, FieldInfos.eq_of_fields (FieldInfos.new_fields accepted)]

theorem decodeFieldInfos_ok {bytes : List UInt8} {infos : FieldInfos} :
    decodeFieldInfos bytes = .ok infos ↔
      ∃ layout : TableLayout, layout.Readable ∧ layout.infos = infos.fields ∧ bytes = layout.bytes := by
  constructor
  · intro accepted
    obtain ⟨⟨fields, trailing⟩, read, built⟩ := except_bind_ok.mp accepted
    have same : infos.fields = fields := FieldInfos.new_fields (except_mapError_ok.mp built)
    obtain ⟨magic, left, array, read₁⟩ := reader_bind_ok.mp read
    obtain ⟨four, rfl⟩ := readArray_append.mp (ofDataIo_ok.mp array)
    obtain ⟨_, left₁, passed, read₂⟩ := reader_bind_ok.mp read₁
    obtain ⟨known, same₁⟩ := reader_refuse_ok.mp passed
    subst same₁
    obtain rfl := not_not.mp known
    obtain ⟨value, left₂, vint, read₃⟩ := reader_bind_ok.mp read₂
    obtain ⟨n, left₃, check, read₄⟩ := reader_bind_ok.mp read₃
    obtain ⟨checked, same₂⟩ := reader_lift_ok.mp check
    subst same₂
    obtain ⟨count, counted, rfl⟩ := (readVint_checked checksSign).mp ⟨value, ofDataIo_ok.mp vint, checked⟩
    obtain ⟨layouts, rfl, each, rfl, rfl⟩ := readFields_ok.mp read₄
    have distinct := infos.distinct
    rw [same] at distinct
    exact ⟨⟨count, layouts, trailing⟩, ⟨counted, each, distinct⟩, same.symm, rfl⟩
  · rintro ⟨⟨count, layouts, trailing⟩, ⟨counted, each, distinct⟩, same, rfl⟩
    have built : FieldInfos.new (layouts.map FieldLayout.field) = .ok infos := by
      have self := infos.new_self
      rwa [← same] at self
    refine except_bind_ok.mpr ⟨(layouts.map FieldLayout.field, trailing), ?_, except_mapError_ok.mpr built⟩
    refine reader_bind_ok.mpr ⟨_, _, ofDataIo_ok.mpr (readArray_append.mpr ⟨rfl, rfl⟩), ?_⟩
    refine reader_bind_ok.mpr ⟨(), _, reader_refuse_ok.mpr ⟨not_not_intro rfl, rfl⟩, ?_⟩
    obtain ⟨value, vint, checked⟩ := (@readVint_checked _ _ _ _ _
      (@checksSign _ FieldInfosCodecError.negativeFieldCount) _).mpr ⟨count, counted, rfl⟩
    refine reader_bind_ok.mpr ⟨value, _, ofDataIo_ok.mpr vint, ?_⟩
    refine reader_bind_ok.mpr ⟨_, _, reader_lift_ok.mpr ⟨checked, rfl⟩, ?_⟩
    exact readFields_ok.mpr ⟨layouts, rfl, each, rfl, rfl⟩

end Tables

section Writing

def FitsI32 (fields : List FieldInfo) : Prop :=
  fields.length < 2 ^ 31 ∧ ∀ field ∈ fields, (utf8 field.name).length < 2 ^ 31 ∧ field.number < 2 ^ 31

def shortLayout (field : FieldInfo) : FieldLayout :=
  ⟨writeGroups 4 (utf8 field.name).length, writeGroups 4 field.number, field⟩

def tableLayout (fields : List FieldInfo) : TableLayout :=
  ⟨writeGroups 4 fields.length, fields.map shortLayout, []⟩

theorem writeVint_ofNat {n : Nat} (small : n < 2 ^ 31) :
    DataOutput.writeVint (Int32.ofNat n) = writeGroups 4 n := by
  have value : (Int32.ofNat n).toUInt32.toNat = n := by
    change n % 2 ^ 32 = n
    omega
  rw [DataOutput.writeVint, value]

theorem encodeField_ok {field : FieldInfo} {bytes : List UInt8} :
    encodeField field = .ok bytes ↔
      ((utf8 field.name).length < 2 ^ 31 ∧ field.number < 2 ^ 31) ∧ bytes = (shortLayout field).bytes := by
  unfold encodeField DataOutput.writeString DataOutput.checkedUsizeLength checkedFieldNumber
  by_cases named : (utf8 field.name).length < 2 ^ 31
  · by_cases numbered : field.number < 2 ^ 31
    · rw [if_pos named, if_pos numbered, and_iff_right ⟨named, numbered⟩]
      have written : (shortLayout field).bytes = DataOutput.writeVint (Int32.ofNat (utf8 field.name).length) ++
          utf8 field.name ++ DataOutput.writeVint (Int32.ofNat field.number) ++
          [indexOptionsToByte field.indexOptions, docValuesTypeToByte field.docValuesType,
            boolToByte field.omitNorms, boolToByte field.storePayloads] := by
        rw [writeVint_ofNat named, writeVint_ofNat numbered]
        simp only [FieldLayout.bytes, shortLayout, List.append_assoc]
      rw [written]
      exact ⟨fun same => (Except.ok.inj same).symm, fun same => congrArg Except.ok same.symm⟩
    · rw [if_pos named, if_neg numbered]
      exact iff_of_false nofun fun both => numbered both.1.2
  · rw [if_neg named]
    exact iff_of_false nofun fun both => named both.1.1

theorem encodeFields_ok {fields : List FieldInfo} {written : List (List UInt8)} :
    fields.mapM encodeField = .ok written ↔
      (∀ field ∈ fields, (utf8 field.name).length < 2 ^ 31 ∧ field.number < 2 ^ 31) ∧
        written = fields.map fun field => (shortLayout field).bytes := by
  induction fields generalizing written with
  | nil => exact ⟨fun same => ⟨by simp, (Except.ok.inj same).symm⟩, fun both => congrArg Except.ok both.2.symm⟩
  | cons field fields ih =>
    rw [List.mapM_cons, List.forall_mem_cons, List.map_cons]
    constructor
    · intro accepted
      obtain ⟨bytes, first, later⟩ := except_bind_ok.mp accepted
      obtain ⟨others, rest, returned⟩ := except_bind_ok.mp later
      cases returned
      obtain ⟨fits, rfl⟩ := encodeField_ok.mp first
      obtain ⟨each, rfl⟩ := ih.mp rest
      exact ⟨⟨fits, each⟩, rfl⟩
    · rintro ⟨⟨fits, each⟩, rfl⟩
      refine except_bind_ok.mpr ⟨_, encodeField_ok.mpr ⟨fits, rfl⟩, ?_⟩
      exact except_bind_ok.mpr ⟨_, ih.mpr ⟨each, rfl⟩, rfl⟩

theorem encodeFieldInfos_ok {infos : FieldInfos} {bytes : List UInt8} :
    encodeFieldInfos infos = .ok bytes ↔ FitsI32 infos.fields ∧ bytes = (tableLayout infos.fields).bytes := by
  unfold encodeFieldInfos checkedLen
  by_cases counted : infos.fields.length < 2 ^ 31
  · have written : (tableLayout infos.fields).bytes = fieldInfosMagic ++
        DataOutput.writeVint (Int32.ofNat infos.fields.length) ++
        (infos.fields.map fun field => (shortLayout field).bytes).flatten := by
      rw [writeVint_ofNat counted, ← List.flatMap_def]
      simp only [TableLayout.bytes, tableLayout, List.append_assoc, List.append_nil, List.flatMap_map]
    rw [if_pos counted, written]
    constructor
    · intro accepted
      obtain ⟨count, same, accepted₁⟩ := except_bind_ok.mp accepted
      cases same
      obtain ⟨fields, each, returned⟩ := except_bind_ok.mp accepted₁
      obtain ⟨fits, rfl⟩ := encodeFields_ok.mp each
      cases returned
      exact ⟨⟨counted, fits⟩, rfl⟩
    · rintro ⟨⟨-, fits⟩, rfl⟩
      refine except_bind_ok.mpr ⟨_, rfl, ?_⟩
      exact except_bind_ok.mpr ⟨_, encodeFields_ok.mpr ⟨fits, rfl⟩, rfl⟩
  · rw [if_neg counted]
    exact iff_of_false nofun fun both => counted both.1.1

theorem writeGroups_exact {n : Nat} (small : n < 2 ^ 31) :
    Exact (writeGroups 4 n) ∧ SpellsVint (writeGroups 4 n) n := by
  have written := @writeGroups_shortest 4 n (by omega)
  refine ⟨⟨written.1, by rw [written.2]; omega⟩, written.1.1, writeGroups_length 4 n, ?_, small⟩
  rw [written.2]
  omega

theorem Exact.eq_writeGroups {group : List UInt8} {n : Nat} (exact : Exact group) (spelled : SpellsVint group n) :
    group = writeGroups 4 n := by
  obtain ⟨-, short, value, -⟩ := spelled
  rw [Nat.mod_eq_of_lt exact.2] at value
  rw [← value]
  exact (shortest_eq_writeGroups exact.1 short).symm

theorem tableLayout_readable {fields : List FieldInfo} (fits : FitsI32 fields) (distinct : Distinct fields) :
    (tableLayout fields).Readable ∧ (tableLayout fields).infos = fields := by
  have infos : (tableLayout fields).infos = fields := by
    rw [TableLayout.infos, tableLayout, List.map_map]
    exact List.map_id fields
  refine ⟨⟨?_, ?_, by rwa [infos]⟩, infos⟩
  · rw [tableLayout, List.length_map]
    exact (writeGroups_exact fits.1).2
  · intro layout member
    obtain ⟨field, inside, rfl⟩ := List.mem_map.mp member
    exact ⟨(writeGroups_exact (fits.2 field inside).1).2, (writeGroups_exact (fits.2 field inside).2).2⟩

theorem TableLayout.Readable.fits {layout : TableLayout} (readable : layout.Readable) : FitsI32 layout.infos := by
  refine ⟨by rw [TableLayout.infos, List.length_map]; exact readable.1.2.2.2, ?_⟩
  intro field member
  obtain ⟨layout', inside, rfl⟩ := List.mem_map.mp member
  have each := readable.2.1 layout' inside
  exact ⟨each.1.2.2.2, each.2.2.2.2⟩

theorem TableLayout.Canonical.eq_tableLayout {layout : TableLayout} (canonical : layout.Canonical)
    (readable : layout.Readable) : layout = tableLayout layout.infos := by
  obtain ⟨count, fields, trailing⟩ := layout
  obtain ⟨counted, each, none⟩ := canonical
  obtain ⟨spelled, readable, -⟩ := readable
  have same : fields = (fields.map FieldLayout.field).map shortLayout := by
    rw [List.map_map]
    refine (List.map_id fields).symm.trans (List.map_congr_left fun layout member => ?_)
    obtain ⟨named, numbered⟩ := readable layout member
    obtain ⟨length, number⟩ := each layout member
    rw [Function.comp_apply, shortLayout, ← length.eq_writeGroups named, ← number.eq_writeGroups numbered]
    rfl
  rw [tableLayout, TableLayout.infos, ← same, List.length_map, ← counted.eq_writeGroups spelled]
  exact congrArg _ none

theorem field_canonical {layout : FieldLayout} {rest rest' : List UInt8} (readable : layout.Readable)
    (same : layout.bytes ++ rest = (shortLayout layout.field).bytes ++ rest') :
    Exact layout.length ∧ Exact layout.number ∧ rest = rest' := by
  have named := writeGroups_exact readable.1.2.2.2
  have numbered := writeGroups_exact readable.2.2.2.2
  simp only [FieldLayout.bytes, shortLayout, List.append_assoc] at same
  obtain ⟨length, after⟩ := whole_prefix readable.1.1 named.2.1 same
  have behind := List.append_cancel_left after
  obtain ⟨number, tags⟩ := whole_prefix readable.2.1 numbered.2.1 behind
  exact ⟨length ▸ named.1, number ▸ numbered.1, List.append_cancel_left tags⟩

theorem fields_canonical {layouts : List FieldLayout} {rest rest' : List UInt8}
    (readable : ∀ layout ∈ layouts, layout.Readable)
    (same : layouts.flatMap FieldLayout.bytes ++ rest =
      (layouts.map fun layout => shortLayout layout.field).flatMap FieldLayout.bytes ++ rest') :
    (∀ layout ∈ layouts, Exact layout.length ∧ Exact layout.number) ∧ rest = rest' := by
  induction layouts with
  | nil => exact ⟨by simp, same⟩
  | cons layout layouts ih =>
    obtain ⟨first, later⟩ := List.forall_mem_cons.mp readable
    rw [List.map_cons, List.flatMap_cons, List.flatMap_cons, List.append_assoc, List.append_assoc] at same
    obtain ⟨length, number, same⟩ := field_canonical first same
    obtain ⟨each, ends⟩ := ih later same
    exact ⟨List.forall_mem_cons.mpr ⟨⟨length, number⟩, each⟩, ends⟩

theorem table_canonical {layout : TableLayout} (readable : layout.Readable)
    (same : layout.bytes = (tableLayout layout.infos).bytes) : layout.Canonical := by
  obtain ⟨count, fields, trailing⟩ := layout
  obtain ⟨counted, each, -⟩ := readable
  have written := writeGroups_exact counted.2.2.2
  simp only [TableLayout.bytes, tableLayout, TableLayout.infos, List.length_map, List.map_map] at same
  obtain ⟨number, after⟩ := whole_prefix counted.1 written.2.1 (List.append_cancel_left same)
  obtain ⟨exact, ends⟩ := fields_canonical each after
  exact ⟨number ▸ written.1, exact, ends⟩

end Writing

section Bijection

/- The numbers are in their shortest spelling and nothing follows, where the bytes are a table of fields. -/
def CanonicalBytes (bytes : List UInt8) : Prop :=
  ∀ layout : TableLayout, layout.Readable → bytes = layout.bytes → layout.Canonical

theorem encode_decode_iff (infos : FieldInfos) :
    (∃ bytes, encodeFieldInfos infos = .ok bytes ∧ decodeFieldInfos bytes = .ok infos) ↔
      FitsI32 infos.fields := by
  constructor
  · rintro ⟨bytes, written, -⟩
    exact (encodeFieldInfos_ok.mp written).1
  · intro fits
    obtain ⟨readable, same⟩ := tableLayout_readable fits infos.distinct
    exact ⟨_, encodeFieldInfos_ok.mpr ⟨fits, rfl⟩, decodeFieldInfos_ok.mpr ⟨_, readable, same, rfl⟩⟩

theorem decode_encode_iff (bytes : List UInt8) :
    (∀ infos, decodeFieldInfos bytes = .ok infos → encodeFieldInfos infos = .ok bytes) ↔
      CanonicalBytes bytes := by
  constructor
  · intro back layout readable same
    obtain ⟨infos, built⟩ := FieldInfos.new_ok.mpr readable.2.2
    have fields := FieldInfos.new_fields built
    have read := decodeFieldInfos_ok.mpr ⟨layout, readable, fields.symm, same⟩
    obtain ⟨-, written⟩ := encodeFieldInfos_ok.mp (back infos read)
    rw [fields] at written
    exact table_canonical readable (same.symm.trans written)
  · intro canonical infos read
    obtain ⟨layout, readable, fields, same⟩ := decodeFieldInfos_ok.mp read
    have written := (canonical layout readable same).eq_tableLayout readable
    rw [encodeFieldInfos_ok, ← fields]
    exact ⟨readable.fits, by rw [← written]; exact same⟩

/- A table whose sizes are written is read back, and bytes that are read are the encoding of what is read,
just under these conditions. -/
theorem field_infos_codec (infos : FieldInfos) (bytes : List UInt8) :
    ((∃ written, encodeFieldInfos infos = .ok written ∧ decodeFieldInfos written = .ok infos) ↔
      FitsI32 infos.fields) ∧
    ((∀ read, decodeFieldInfos bytes = .ok read → encodeFieldInfos read = .ok bytes) ↔
      CanonicalBytes bytes) :=
  ⟨encode_decode_iff infos, decode_encode_iff bytes⟩

/- Three spellings of the table without fields. -/
theorem not_field_infos_codec :
    ∃ infos, decodeFieldInfos (fieldInfosMagic ++ [0x00]) = .ok infos ∧
      decodeFieldInfos (fieldInfosMagic ++ [0x80, 0x00]) = .ok infos ∧
      decodeFieldInfos (fieldInfosMagic ++ [0x80, 0x80, 0x80, 0x80, 0x10]) = .ok infos ∧
      decodeFieldInfos (fieldInfosMagic ++ [0x00, 0x2a]) = .ok infos ∧
      encodeFieldInfos infos = .ok (fieldInfosMagic ++ [0x00]) :=
  ⟨⟨[], .empty, .empty, rfl⟩, rfl, rfl, rfl, rfl, rfl⟩

end Bijection

end Surch.Index
