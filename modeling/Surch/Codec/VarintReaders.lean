import Surch.Codec.Grammar
import Surch.Store.DataIo
import Surch.Store.WalFile

/-! The four readers of variable-length numbers beside each other. Where the last byte they look at has bits
above the width, three of them give a number that was not written. -/
namespace Surch.Codec
open Surch.Lib Surch.Lib.Leb128 Surch.Store

section Readers

theorem readVint_eq (groups shift : Nat) (low : shift + 7 * groups < 39) (value : Nat)
    (small : value < 2 ^ 32) (input : List UInt8) :
    readVint (List.range' shift groups 7) (UInt32.ofNat value) input =
      (readGroups 32 .ok CodecUtilError.unexpectedEof groups shift value input).map
        fun (value, rest) => (UInt32.ofNat value, rest) := by
  induction groups generalizing shift value input with
  | zero => rfl
  | succ groups ih =>
    cases input with
    | nil => rfl
    | cons b input =>
      have shifted : ((b &&& 0x7f).toUInt32 <<< UInt32.ofNat shift).toNat =
          ((b &&& 0x7f).toNat <<< shift) % 2 ^ 32 := by
        have within : (UInt32.ofNat shift).toNat % 32 = shift := by
          rw [UInt32.toNat_ofNat']
          omega
        rw [UInt32.toNat_shiftLeft, within, UInt8.toNat_toUInt32]
      have joined : value ||| ((b &&& 0x7f).toNat <<< shift) % 2 ^ 32 < 2 ^ 32 :=
        Nat.or_lt_two_pow small (Nat.mod_lt _ (by decide))
      have step : UInt32.ofNat value ||| ((b &&& 0x7f).toUInt32 <<< UInt32.ofNat shift) =
          UInt32.ofNat (value ||| ((b &&& 0x7f).toNat <<< shift) % 2 ^ 32) := by
        apply UInt32.toNat_inj.mp
        rw [UInt32.toNat_or, shifted, UInt32.toNat_ofNat_of_lt' small, UInt32.toNat_ofNat_of_lt' joined]
      have one : Reads (readArray CodecUtilError.unexpectedEof 1) [b] [b] := reads_array _ rfl
      rw [List.range'_succ, readVint, ← List.singleton_append, one.step, List.headD_cons, List.singleton_append,
        readGroups]
      simp only [step]
      split
      · rfl
      · exact ih (shift + 7) (by omega) _ joined input

theorem faithful_map {ε α : Type} {reader : Reader ε UInt8 Nat} {f : Nat → α} {unsigned : α → Nat}
    {input : List UInt8}
    (back : ∀ value rest, reader input = .ok (value, rest) → unsigned (f value) = value) :
    Faithful (do let value ← reader; return f value) unsigned input ↔ Faithful reader id input := by
  constructor
  · intro faithful value rest read
    have mapped : (do let value ← reader; return f value : Reader ε UInt8 α) input = .ok (f value, rest) := by
      rw [reader_bind, read]
      rfl
    obtain ⟨consumed, same, whole, unsigned⟩ := faithful _ _ mapped
    exact ⟨consumed, same, whole, (back value rest read).symm.trans unsigned⟩
  · intro faithful mapped rest read
    obtain ⟨value, rest', read, returned⟩ := reader_bind_ok.mp read
    cases returned
    obtain ⟨consumed, same, whole, exact'⟩ := faithful _ _ read
    exact ⟨consumed, same, whole, (back value rest read).trans exact'⟩

theorem readVint_groups : readVint [0, 7, 14, 21, 28] 0 = (do
    let value ← readGroups 32 .ok CodecUtilError.unexpectedEof 5 0 0
    return UInt32.ofNat value : Reader CodecUtilError UInt8 UInt32) := by
  funext input
  refine (readVint_eq 5 0 (by decide) 0 (by decide) input).trans ?_
  rw [reader_bind]
  cases readGroups 32 .ok CodecUtilError.unexpectedEof 5 0 0 input <;> rfl

theorem readVint_faithful (input : List UInt8) :
    Faithful (readVint [0, 7, 14, 21, 28] 0) UInt32.toNat input ↔
      ∀ last, Reaches 4 input last → last.toNat < 16 := by
  rw [readVint_groups, faithful_map fun value rest read => ?_]
  · exact @faithful_returning _ 4 4 _ input (by decide) (by decide)
  · have small := readGroups_lt (fun _ _ small found => Except.ok.inj found ▸ small) (by decide) read
    exact UInt32.toNat_ofNat_of_lt' small

theorem dataVint_faithful (size : Nat) (input : List UInt8) :
    Faithful (DataInput.readVint size) (fun value => value.toUInt32.toNat) input ↔
      ∀ last, Reaches 4 input last → last.toNat < 16 ∨ 128 ≤ last.toNat := by
  rw [DataInput.readVint, faithful_map fun value rest read => ?_]
  · exact @faithful_refusing _ 4 4 _ input _ (by decide) (by decide)
  · have small := readGroups_lt (fun _ _ _ found => by cases found) (by decide) read
    rw [UInt32.toUInt32_toInt32]
    exact UInt32.toNat_ofNat_of_lt' small

theorem dataVlong_faithful (size : Nat) (input : List UInt8) :
    Faithful (DataInput.readVlong size) (fun value => value.toUInt64.toNat) input ↔
      ∀ last, Reaches 9 input last → last.toNat < 2 ∨ 128 ≤ last.toNat := by
  rw [DataInput.readVlong, faithful_map fun value rest read => ?_]
  · exact @faithful_refusing _ 9 1 _ input _ (by decide) (by decide)
  · have small := readGroups_lt (fun _ _ _ found => by cases found) (by decide) read
    rw [UInt64.toUInt64_toInt64]
    exact UInt64.toNat_ofNat_of_lt' small

theorem readVarintU32_faithful (input : List UInt8) : Faithful readVarintU32 id input := by
  intro value rest accepted
  obtain ⟨bytes, ⟨whole, -, sum, -⟩, same⟩ := (accepts_varint input value rest).mp accepted
  exact ⟨bytes, same, whole, sum.symm⟩

theorem writeVint_eq (fuel value : Nat) : writeVint fuel value = writeGroups fuel value := by
  induction fuel generalizing value with
  | zero => rfl
  | succ fuel ih => rw [writeVint, writeGroups, ih]

theorem reads_writeVint (value : UInt32) :
    Reads (readVint [0, 7, 14, 21, 28] 0) (writeVint 4 value.toNat) value := by
  have small := value.toNat_lt
  rw [readVint_groups, writeVint_eq]
  refine (reads_writeGroups (small.trans (by decide)) small (by decide)).bind_silent ?_
  rw [UInt32.ofNat_toNat]
  exact .pure value

end Readers

section Laws

/- What each reader gives is what its bytes spell. -/
structure VarintsFaithful (input : List UInt8) : Prop where
  codecUtil : Faithful (readVint [0, 7, 14, 21, 28] 0) UInt32.toNat input
  vint : Faithful (DataInput.readVint input.length) (fun value => value.toUInt32.toNat) input
  vlong : Faithful (DataInput.readVlong input.length) (fun value => value.toUInt64.toNat) input
  postings : Faithful readVarintU32 id input

/- What each writer writes, its reader gives back, and it takes no more. -/
structure VarintsRoundTrip : Prop where
  codecUtil : ∀ value : UInt32, Reads (readVint [0, 7, 14, 21, 28] 0) (writeVint 4 value.toNat) value
  vint : ∀ size (value : Int32), Reads (DataInput.readVint size) (DataOutput.writeVint value) value
  vlong : ∀ size (value : Int64), ¬ value < 0 →
    ∃ written, DataOutput.writeVlong value = .ok written ∧ Reads (DataInput.readVlong size) written value
  zlong : ∀ size (value : Int64), Reads (DataInput.readZlong size) (DataOutput.writeZlong value) value
  postings : ∀ value, value < 2 ^ 32 → Reads readVarintU32 (writeVarintU32 value) value

/- A fifth byte behind four that say more follow has no bits above the thirty-second, nor a tenth one that
ends a number bits above the sixty-fourth. -/
def LastGroupsFit (input : List UInt8) : Prop :=
  (∀ last, Reaches 4 input last → last.toNat < 16) ∧
    ∀ last, Reaches 9 input last → last.toNat < 2 ∨ 128 ≤ last.toNat

theorem varintsRoundTrip : VarintsRoundTrip where
  codecUtil := reads_writeVint
  vint := DataInput.reads_vint
  vlong _ _ positive := DataInput.reads_vlong _ positive
  zlong := DataInput.reads_zlong
  postings := reads_varint

/- The readers lose no bits just where the last groups fit; what is written always does. -/
theorem varint_readers (input : List UInt8) :
    VarintsFaithful input ∧ VarintsRoundTrip ↔ LastGroupsFit input := by
  constructor
  · rintro ⟨faithful, -⟩
    exact ⟨(readVint_faithful input).mp faithful.codecUtil, (dataVlong_faithful _ input).mp faithful.vlong⟩
  · rintro ⟨five, ten⟩
    exact ⟨⟨(readVint_faithful input).mpr five,
      (dataVint_faithful _ input).mpr fun last reaches => .inl (five last reaches),
      (dataVlong_faithful _ input).mpr ten, readVarintU32_faithful input⟩, varintsRoundTrip⟩

/- Five bytes that all say more follow, a fifth byte with bits above the width, and a tenth one. -/
theorem not_varint_readers :
    readVint [0, 7, 14, 21, 28] 0 [0x81, 0x80, 0x80, 0x80, 0x80] = .ok (1, []) ∧
      readVint [0, 7, 14, 21, 28] 0 [0x81, 0x80, 0x80, 0x80, 0x70] = .ok (1, []) ∧
      DataInput.readVint 5 [0x81, 0x80, 0x80, 0x80, 0x70] = .ok (1, []) ∧
      DataInput.readVlong 10 [0x81, 0x80, 0x80, 0x80, 0x80, 0x80, 0x80, 0x80, 0x80, 0x7e] = .ok (1, []) ∧
      ¬ VarintsFaithful [0x81, 0x80, 0x80, 0x80, 0x70] := by
  refine ⟨rfl, rfl, rfl, rfl, ?_⟩
  intro faithful
  obtain ⟨consumed, same, -, value⟩ := faithful.vint 1 [] rfl
  rw [List.append_nil] at same
  subst same
  exact absurd value (by decide)

end Laws

end Surch.Codec
