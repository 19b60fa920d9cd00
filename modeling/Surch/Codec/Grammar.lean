import Mathlib.Tactic.NormNum
import Surch.Codec.Directory
import Surch.Lib.Leb128

/-! What blocks of postings look like, written by this encoder or by another one, and that the block
reader takes just these. -/
namespace Surch.Codec
open Surch.Lib Surch.Lib.Leb128

section Spelling

/- A `u32` in groups of seven bits, in five bytes at most. -/
def SpellsU32 (bytes : List UInt8) (value : Nat) : Prop :=
  Leb128.Whole bytes ∧ bytes.length ≤ 5 ∧ groupNat bytes = value ∧ value < 2 ^ 32

def SpellsVarints (count : Nat) (bytes : List UInt8) (values : List Nat) : Prop :=
  ∃ words, words.length = count ∧ List.Forall₂ SpellsU32 words values ∧ bytes = words.flatten

/- Each value is a digit of the number that the bytes are. -/
def SpellsPacked (count width : Nat) (bytes : List UInt8) (values : List Nat) : Prop :=
  bytes.length = packedLen count width ∧
    values = (List.range count).map fun i => leNat bytes / 2 ^ (width * i) % 2 ^ width

/- Exceptions at ascending places, each above the width and into a slot that holds zero. -/
inductive SpellsExceptions (threshold count : Nat) :
    Nat → Option Nat → List Nat → List UInt8 → List Nat → Prop
  | done {previous : Option Nat} {deltas : List Nat} :
      SpellsExceptions threshold count 0 previous deltas [] deltas
  | patch {left value : Nat} {previous : Option Nat} {index : UInt8} {deltas patched : List Nat}
      {word bytes : List UInt8} (inside : index.toNat < count)
      (ascending : ∀ before ∈ previous, before < index.toNat) (spelled : SpellsU32 word value)
      (exceeds : threshold ≤ value) (free : deltas.getD index.toNat 0 = 0)
      (rest : SpellsExceptions threshold count left (some index.toNat)
        (deltas.set index.toNat value) bytes patched) :
      SpellsExceptions threshold count (left + 1) previous deltas (index :: (word ++ bytes)) patched

inductive SpellsDeltas (count : Nat) (mode : UInt8) : List UInt8 → List Nat → Prop
  | varint {bytes : List UInt8} {deltas : List Nat} (plain : mode = 0)
      (spelled : SpellsVarints count bytes deltas) : SpellsDeltas count mode bytes deltas
  | packed {width : UInt8} {bytes : List UInt8} {deltas : List Nat} (dense : mode = 1)
      (positive : 1 ≤ width.toNat) (bound : width.toNat ≤ 32)
      (spelled : SpellsPacked count width.toNat bytes deltas) :
      SpellsDeltas count mode (width :: bytes) deltas
  | patched {width exceptions : UInt8} {bytes list : List UInt8} {slots deltas : List Nat}
      (mixed : mode = 2) (positive : 1 ≤ width.toNat) (bound : width.toNat < 32)
      (some_exception : 1 ≤ exceptions.toNat) (few : exceptions.toNat ≤ count)
      (spelled : SpellsPacked count width.toNat bytes slots)
      (patches : SpellsExceptions (2 ^ width.toNat) count exceptions.toNat none slots list deltas) :
      SpellsDeltas count mode (width :: exceptions :: (bytes ++ list)) deltas

inductive SpellsFreqs (count : Nat) (mode : UInt8) : List UInt8 → List Nat → Prop
  | allOnes (omitted : mode = 0) : SpellsFreqs count mode [] (List.replicate count 1)
  | constant {word : List UInt8} {freq : Nat} (alike : mode = 1) (spelled : SpellsU32 word freq)
      (mixed : freq ≠ 1) : SpellsFreqs count mode word (List.replicate count freq)
  | packed {width : UInt8} {bytes : List UInt8} {freqs : List Nat} (dense : mode = 2)
      (positive : 1 ≤ width.toNat) (bound : width.toNat ≤ 32)
      (spelled : SpellsPacked count width.toNat bytes freqs) :
      SpellsFreqs count mode (width :: bytes) freqs
  | varint {bytes : List UInt8} {freqs : List Nat} (plain : mode = 3)
      (spelled : SpellsVarints count bytes freqs) : SpellsFreqs count mode bytes freqs

/- A block: the modes, the first identifier, the steps to the others and the frequencies. -/
inductive SpellsBlock (count : Nat) : List UInt8 → List Nat → List Nat → Prop
  | block {header : UInt8} {word docBytes freqBytes : List UInt8} {first : Nat} {later freqs : List Nat}
      (reserved : header &&& 0xf0 = 0) (absolute : SpellsU32 word first)
      (deltas : SpellsDeltas (count - 1) (header &&& 0x03) docBytes (blockDeltas (first :: later)))
      (increasing : (first :: later).IsChain (· < ·)) (fits : ∀ docId ∈ later, docId < 2 ^ 32)
      (frequencies : SpellsFreqs count ((header >>> 2) &&& 0x03) freqBytes freqs) :
      SpellsBlock count (header :: (word ++ (docBytes ++ freqBytes))) (first :: later) freqs

/- The blocks of a term: all are full but the last. -/
inductive SpellsBlocks : Nat → List UInt8 → List (List Nat) → List Nat → Prop
  | done : SpellsBlocks 0 [] [] []
  | block {remaining : Nat} {bytes rest : List UInt8} {docs freqs later : List Nat}
      {blocks : List (List Nat)} (some_left : remaining ≠ 0)
      (here : SpellsBlock (min remaining forBlockSize) bytes docs freqs)
      (behind : SpellsBlocks (remaining - min remaining forBlockSize) rest blocks later) :
      SpellsBlocks remaining (bytes ++ rest) (docs :: blocks) (freqs ++ later)

end Spelling

section Reading

theorem readVarintLoop_iff {input rest : List UInt8} {result groups value : Nat} (few : groups ≤ 4)
    (low : result < 2 ^ (7 * groups)) :
    readVarintLoop input result (7 * groups) = .ok (value, rest) ↔
      ∃ bytes, (Leb128.Whole bytes ∧ bytes.length + groups ≤ 5 ∧
        value = result + groupNat bytes * 2 ^ (7 * groups) ∧ value < 2 ^ 32) ∧ input = bytes ++ rest := by
  induction input generalizing result groups with
  | nil =>
    constructor
    · intro accepted
      cases accepted
    · rintro ⟨bytes, ⟨whole, -⟩, same⟩
      exact absurd (List.append_eq_nil_iff.mp same.symm).1 whole.ne_nil
  | cons b input ih =>
    have narrow : ¬ 7 * groups ≥ 32 := by omega
    rw [readVarintLoop, guarded_ok, guarded_ok, guarded_ok, low_seven_bits, or_shiftLeft_of_lt low,
      and_iff_right narrow]
    have digit : b.toNat % 128 + 1 ≤ 128 := Nat.mod_lt _ (by decide)
    by_cases stop : b.toNat < 128
    · have last : b &&& 0x80 = 0 := (continuation_clear_iff b).mpr stop
      have whole : b.toNat % 128 = b.toNat := Nat.mod_eq_of_lt stop
      -- only the fifth byte can lead out of the width
      have fits : ¬ (7 * groups = 28 ∧ b.toNat % 128 > 0x0f) ↔
          result + b.toNat % 128 * 2 ^ (7 * groups) < 2 ^ 32 := by
        obtain rfl | rfl | rfl | rfl | rfl : groups = 0 ∨ groups = 1 ∨ groups = 2 ∨ groups = 3 ∨ groups = 4 := by
          omega
        all_goals norm_num at low ⊢; omega
      rw [if_pos last, fits]
      constructor
      · rintro ⟨-, small, same⟩
        cases same
        refine ⟨[b], ⟨whole_last stop, ?_, ?_, small⟩, rfl⟩
        · rw [List.length_singleton]
          omega
        · rw [groupNat_cons, groupNat_nil, Nat.mul_zero, Nat.add_zero]
      · rintro ⟨bytes, ⟨ends, -, sum, small⟩, same⟩
        cases bytes with
        | nil => exact ends.elim
        | cons c bytes =>
          obtain ⟨rfl, rfl⟩ := List.cons.inj same
          rw [Leb128.Whole, if_pos stop] at ends
          subst ends
          rw [groupNat_cons, groupNat_nil, Nat.mul_zero, Nat.add_zero] at sum
          refine ⟨by simp [last], by omega, ?_⟩
          rw [sum]
          rfl
    · have more : ¬ b &&& 0x80 = 0 := by rwa [continuation_clear_iff]
      have weight : 2 ^ (7 * (groups + 1)) = 128 * 2 ^ (7 * groups) := by
        rw [Nat.mul_succ, Nat.pow_add, Nat.mul_comm]
      have deeper : result + b.toNat % 128 * 2 ^ (7 * groups) < 2 ^ (7 * (groups + 1)) := by
        have step := Nat.mul_le_mul_right (2 ^ (7 * groups)) digit
        rw [Nat.add_mul, Nat.one_mul] at step
        omega
      rw [if_neg more]
      constructor
      · rintro ⟨open', -, accepted⟩
        have fewer : groups + 1 ≤ 4 := by
          by_contra full
          exact open' ⟨by omega, more⟩
        obtain ⟨bytes, ⟨whole, short, sum, small⟩, rfl⟩ := (ih fewer deeper).mp accepted
        refine ⟨b :: bytes, ⟨(whole_cons (Nat.le_of_not_lt stop)).mpr whole, ?_, ?_, small⟩, rfl⟩
        · rw [List.length_cons]
          omega
        · rw [sum, groupNat_cons, weight]
          ring
      · rintro ⟨bytes, ⟨whole, short, sum, small⟩, same⟩
        cases bytes with
        | nil => exact whole.elim
        | cons c bytes =>
          obtain ⟨rfl, rfl⟩ := List.cons.inj same
          rw [whole_cons (Nat.le_of_not_lt stop)] at whole
          have left := List.length_pos_iff.mpr whole.ne_nil
          rw [List.length_cons] at short
          refine ⟨by omega, by omega, (ih (by omega) deeper).mpr ⟨bytes, ⟨whole, by omega, ?_, small⟩, rfl⟩⟩
          rw [sum, groupNat_cons, weight]
          ring

theorem accepts_varint : Accepts readVarintU32 SpellsU32 := by
  intro input value rest
  have read := @readVarintLoop_iff input rest 0 0 value (by decide) (by decide)
  simpa [readVarintU32, SpellsU32, eq_comm] using read

theorem accepts_byte : Accepts readByte fun written byte => written = [byte] := by
  intro input byte rest
  cases input with
  | nil => simp [readByte]
  | cons b input => simp [readByte, and_comm]

theorem accepts_width :
    Accepts readWidth fun written width =>
      ∃ byte : UInt8, written = [byte] ∧ byte.toNat = width ∧ 1 ≤ width ∧ width ≤ 32 := by
  refine (accepts_byte.bind fun _ => (Accepts.throw _).ite (.pure _)).congr fun written width => ?_
  constructor
  · rintro ⟨_, byte, _, rfl, chosen, rfl⟩
    split at chosen
    · exact chosen.elim
    · rename_i fine
      obtain ⟨rfl, rfl⟩ := chosen
      refine ⟨byte, rfl, rfl, ?_⟩
      unfold maxPackedWidth at fine
      omega
  · rintro ⟨byte, rfl, rfl, positive, bound⟩
    refine ⟨[byte], byte, [], rfl, ?_, rfl⟩
    rw [if_neg (by unfold maxPackedWidth; omega)]
    exact ⟨rfl, rfl⟩

theorem accepts_varints (count : Nat) : Accepts (readVarints count) (SpellsVarints count) := by
  induction count with
  | zero =>
    refine (Accepts.pure []).congr fun written values => ?_
    constructor
    · rintro ⟨rfl, rfl⟩
      exact ⟨[], rfl, .nil, rfl⟩
    · rintro ⟨words, none, each, rfl⟩
      obtain rfl := List.length_eq_zero_iff.mp none
      cases each
      exact ⟨rfl, rfl⟩
  | succ count ih =>
    refine (accepts_varint.bind fun _ => ih.bind fun _ => .pure _).congr fun written values => ?_
    constructor
    · rintro ⟨word, value, _, here, ⟨_, values, _, ⟨words, rfl, each, rfl⟩, ⟨rfl, rfl⟩, rfl⟩, rfl⟩
      exact ⟨word :: words, rfl, .cons here each, by simp⟩
    · rintro ⟨words, counted, each, rfl⟩
      cases each with
      | nil => cases counted
      | cons here each =>
        exact ⟨_, _, _, here, ⟨_, _, [], ⟨_, Nat.succ.inj counted, each, rfl⟩, ⟨rfl, rfl⟩, rfl⟩, by simp⟩

theorem accepts_unpackBits (count width : Nat) :
    Accepts (unpackBits count width) (SpellsPacked count width) := by
  intro input values rest
  have spelled {bytes : List UInt8} (length : bytes.length = packedLen count width) :
      unpackValues bytes width count 0 =
        (List.range count).map fun i => leNat bytes / 2 ^ (width * i) % 2 ^ width := by
    rw [unpackValues_spec _ _ _ _ (by rw [length, packedLen, Nat.mul_comm]; omega)]
    simp only [Nat.zero_add]
  unfold unpackBits
  by_cases nothing : count = 0
  · subst nothing
    simp [SpellsPacked, packedLen, eq_comm]
  rw [if_neg nothing]
  dsimp only
  rw [guarded_ok, Nat.not_lt]
  constructor
  · rintro ⟨enough, same⟩
    cases same
    have length := List.length_take_of_le enough
    exact ⟨_, ⟨length, spelled length⟩, (List.take_append_drop _ _).symm⟩
  · rintro ⟨bytes, ⟨length, rfl⟩, rfl⟩
    rw [← length, List.take_left, List.drop_left, spelled length, List.length_append]
    exact ⟨by omega, rfl⟩

theorem accepts_exceptions (threshold count left : Nat) (previous : Option Nat) (deltas : List Nat) :
    Accepts (readExceptions threshold count left previous deltas)
      (SpellsExceptions threshold count left previous deltas) := by
  induction left generalizing previous deltas with
  | zero =>
    refine (Accepts.pure deltas).congr fun written patched => ?_
    constructor
    · rintro ⟨rfl, rfl⟩
      exact .done
    · rintro ⟨⟩
      exact ⟨rfl, rfl⟩
  | succ left ih =>
    have order (index : UInt8) : ¬ (index.toNat ≥ count ∨
        (previous.any fun before => index.toNat ≤ before) = true) ↔
          index.toNat < count ∧ ∀ before ∈ previous, before < index.toNat := by
      cases previous <;> simp [not_or]
    refine (accepts_byte.bind fun index => (Accepts.throw _).ite
      (accepts_varint.bind fun value => (Accepts.throw _).ite (ih _ _))).congr fun written patched => ?_
    constructor
    · rintro ⟨_, index, _, rfl, chosen, rfl⟩
      split at chosen
      · exact chosen.elim
      rename_i ordered
      obtain ⟨inside, ascending⟩ := (order index).mp ordered
      obtain ⟨word, value, bytes, spelled, chosen, rfl⟩ := chosen
      split at chosen
      · exact chosen.elim
      rename_i fresh
      rw [not_or, Nat.not_lt, not_not] at fresh
      rw [List.singleton_append]
      exact .patch inside ascending spelled fresh.1 fresh.2 chosen
    · intro spelled
      cases spelled with
      | patch inside ascending spelled exceeds free rest =>
        refine ⟨[_], _, _, rfl, ?_, rfl⟩
        rw [if_neg ((order _).mpr ⟨inside, ascending⟩)]
        refine ⟨_, _, _, spelled, ?_, rfl⟩
        rw [if_neg (by rw [free]; simpa using exceeds)]
        exact rest

theorem accepts_docChannel (mode : UInt8) (count : Nat) :
    Accepts (readDocChannel mode count) (SpellsDeltas count mode) := by
  unfold readDocChannel
  split
  · rename_i plain
    refine (accepts_varints count).congr fun written deltas => ⟨.varint plain, fun spelled => ?_⟩
    cases spelled with
    | varint _ spelled => exact spelled
    | packed other | patched other => exact absurd (plain.symm.trans other) (by decide)
  split
  · rename_i dense
    refine (accepts_width.bind fun width => accepts_unpackBits count width).congr
      fun written deltas => ⟨?_, fun spelled => ?_⟩
    · rintro ⟨_, _, bytes, ⟨width, rfl, rfl, positive, bound⟩, spelled, rfl⟩
      exact .packed dense positive bound spelled
    · cases spelled with
      | packed _ positive bound spelled =>
        exact ⟨[_], _, _, ⟨_, rfl, rfl, positive, bound⟩, spelled, rfl⟩
      | varint other | patched other => exact absurd (dense.symm.trans other) (by decide)
  split
  · rename_i mixed
    refine (accepts_width.bind fun width => (Accepts.throw _).ite (accepts_byte.bind fun exceptions =>
      (Accepts.throw _).ite ((accepts_unpackBits count width).bind fun slots =>
        accepts_exceptions _ _ _ _ _))).congr fun written deltas => ⟨?_, fun spelled => ?_⟩
    · rintro ⟨_, _, _, ⟨width, rfl, rfl, positive, -⟩, chosen, rfl⟩
      split at chosen
      · exact chosen.elim
      rename_i bound
      obtain ⟨_, exceptions, _, rfl, chosen, rfl⟩ := chosen
      split at chosen
      · exact chosen.elim
      rename_i few
      obtain ⟨bytes, slots, list, spelled, patches, rfl⟩ := chosen
      unfold maxPackedWidth at bound
      rw [List.singleton_append, List.singleton_append]
      exact .patched mixed positive (by omega) (by omega) (by omega) spelled patches
    · cases spelled with
      | patched _ positive bound some_exception few spelled patches =>
        refine ⟨[_], _, _, ⟨_, rfl, rfl, positive, bound.le⟩, ?_, rfl⟩
        rw [if_neg (by unfold maxPackedWidth; omega)]
        refine ⟨[_], _, _, rfl, ?_, rfl⟩
        rw [if_neg (by omega)]
        exact ⟨_, _, _, spelled, patches, rfl⟩
      | varint other | packed other => exact absurd (mixed.symm.trans other) (by decide)
  · rename_i not_zero not_one not_two
    refine (Accepts.throw _).congr fun written deltas => ⟨False.elim, fun spelled => ?_⟩
    cases spelled <;> contradiction

theorem accepts_freqChannel (mode : UInt8) (count : Nat) :
    Accepts (readFreqChannel mode count) (SpellsFreqs count mode) := by
  unfold readFreqChannel
  split
  · rename_i omitted
    refine (Accepts.pure _).congr fun written freqs => ⟨?_, fun spelled => ?_⟩
    · rintro ⟨rfl, rfl⟩
      exact .allOnes omitted
    · cases spelled with
      | allOnes => exact ⟨rfl, rfl⟩
      | constant other | packed other | varint other =>
        exact absurd (omitted.symm.trans other) (by decide)
  split
  · rename_i alike
    refine (accepts_varint.bind fun freq => (Accepts.throw _).ite (.pure _)).congr
      fun written freqs => ⟨?_, fun spelled => ?_⟩
    · rintro ⟨word, freq, _, spelled, chosen, rfl⟩
      split at chosen
      · exact chosen.elim
      · rename_i mixed
        obtain ⟨rfl, rfl⟩ := chosen
        rw [List.append_nil]
        exact .constant alike spelled mixed
    · cases spelled with
      | constant _ spelled mixed =>
        refine ⟨_, _, [], spelled, ?_, (List.append_nil _).symm⟩
        rw [if_neg mixed]
        exact ⟨rfl, rfl⟩
      | allOnes other | packed other | varint other =>
        exact absurd (alike.symm.trans other) (by decide)
  split
  · rename_i dense
    refine (accepts_width.bind fun width => accepts_unpackBits count width).congr
      fun written freqs => ⟨?_, fun spelled => ?_⟩
    · rintro ⟨_, _, bytes, ⟨width, rfl, rfl, positive, bound⟩, spelled, rfl⟩
      exact .packed dense positive bound spelled
    · cases spelled with
      | packed _ positive bound spelled =>
        exact ⟨[_], _, _, ⟨_, rfl, rfl, positive, bound⟩, spelled, rfl⟩
      | allOnes other | constant other | varint other =>
        exact absurd (dense.symm.trans other) (by decide)
  split
  · rename_i plain
    refine (accepts_varints count).congr fun written freqs => ⟨.varint plain, fun spelled => ?_⟩
    cases spelled with
    | varint _ spelled => exact spelled
    | allOnes other | constant other | packed other =>
      exact absurd (plain.symm.trans other) (by decide)
  · rename_i not_zero not_one not_two not_three
    refine (Accepts.throw _).congr fun written freqs => ⟨False.elim, fun spelled => ?_⟩
    cases spelled <;> contradiction

theorem accepts_accumulate (previous : Nat) (deltas : List Nat) :
    Accepts (accumulateDocIds previous deltas) fun written later =>
      written = [] ∧ blockDeltas (previous :: later) = deltas ∧
        (previous :: later).IsChain (· < ·) ∧ ∀ docId ∈ later, docId < 2 ^ 32 := by
  induction deltas generalizing previous with
  | nil =>
    refine (Accepts.pure []).congr fun written later => and_congr_right fun _ => ?_
    constructor
    · rintro rfl
      exact ⟨rfl, List.isChain_singleton _, by simp⟩
    · rintro ⟨none, -⟩
      cases later with
      | nil => rfl
      | cons doc later => cases none
  | cons delta deltas ih =>
    refine ((Accepts.throw _).ite ((Accepts.throw _).ite ((ih _).bind fun _ => .pure _))).congr
      fun written later => ⟨fun chosen => ?_, ?_⟩
    · split at chosen
      · exact chosen.elim
      rename_i positive
      split at chosen
      · exact chosen.elim
      rename_i small
      obtain ⟨_, later, _, ⟨rfl, rfl, increasing, fits⟩, ⟨rfl, rfl⟩, rfl⟩ := chosen
      refine ⟨rfl, ?_, List.isChain_cons_cons.mpr ⟨by omega, increasing⟩,
        List.forall_mem_cons.mpr ⟨by omega, fits⟩⟩
      rw [blockDeltas, windows2_cons_cons, List.map_cons, Nat.add_sub_cancel_left]
      rfl
    · rintro ⟨rfl, same, increasing, fits⟩
      cases later with
      | nil => cases same
      | cons doc later =>
        rw [blockDeltas, windows2_cons_cons, List.map_cons] at same
        obtain ⟨step, rest⟩ := List.cons.inj same
        obtain ⟨above, chain⟩ := List.isChain_cons_cons.mp increasing
        obtain ⟨small, others⟩ := List.forall_mem_cons.mp fits
        dsimp only at step
        obtain rfl : doc = previous + delta := by omega
        rw [if_neg (by omega), if_neg (by omega)]
        exact ⟨[], later, [], ⟨rfl, rest, chain, others⟩, ⟨rfl, rfl⟩, rfl⟩

theorem accepts_block {count : Nat} (some_left : count ≠ 0) :
    Accepts (decodeBlockAt count) fun written block => SpellsBlock count written block.1 block.2 := by
  unfold decodeBlockAt
  rw [if_neg some_left]
  refine (accepts_byte.bind fun header => (Accepts.throw _).ite (accepts_varint.bind fun first =>
    (accepts_docChannel _ _).bind fun deltas => (accepts_accumulate _ _).bind fun later =>
      (accepts_freqChannel _ _).bind fun freqs => .pure _)).congr fun written block => ⟨?_, ?_⟩
  · rintro ⟨_, header, _, rfl, chosen, rfl⟩
    split at chosen
    · exact chosen.elim
    rename_i reserved
    obtain ⟨word, first, _, absolute, ⟨docBytes, _, _, deltas, ⟨_, later, _, ⟨rfl, rfl, increasing, fits⟩,
      ⟨freqBytes, freqs, _, frequencies, ⟨rfl, rfl⟩, rfl⟩, rfl⟩, rfl⟩, rfl⟩ := chosen
    rw [List.nil_append, List.append_nil, List.singleton_append]
    exact .block (not_not.mp reserved) absolute deltas increasing fits frequencies
  · obtain ⟨docs, freqs⟩ := block
    rintro ⟨reserved, absolute, deltas, increasing, fits, frequencies⟩
    refine ⟨[_], _, _, rfl, ?_, rfl⟩
    rw [if_neg (not_not.mpr reserved)]
    exact ⟨_, _, _, absolute, ⟨_, _, _, deltas, ⟨[], _, _, ⟨rfl, rfl, increasing, fits⟩,
      ⟨_, _, [], frequencies, ⟨rfl, rfl⟩, (List.append_nil _).symm⟩, rfl⟩, rfl⟩, rfl⟩

/-- What is decoded as a whole is what the blocks hold. -/
theorem accepts_blocks (remaining : Nat) :
    Accepts (decodeBlocks remaining) fun written term =>
      ∃ blocks, SpellsBlocks remaining written blocks term.2 ∧ term.1 = blocks.flatten := by
  induction remaining using Nat.strongRecOn with
  | ind remaining ih =>
    unfold decodeBlocks
    by_cases nothing : remaining = 0
    · subst nothing
      refine (Accepts.pure _).congr fun written term => ⟨?_, ?_⟩
      · rintro ⟨rfl, rfl⟩
        exact ⟨[], .done, rfl⟩
      · obtain ⟨docIds, freqs⟩ := term
        rintro ⟨blocks, spelled, rfl⟩
        cases spelled with
        | done => exact ⟨rfl, rfl⟩
        | block some_left => exact absurd rfl some_left
    have fewer : remaining - min remaining forBlockSize < remaining := by
      unfold forBlockSize
      omega
    have here : min remaining forBlockSize ≠ 0 := by
      unfold forBlockSize
      omega
    rw [if_neg nothing]
    refine ((accepts_block here).bind fun block => (ih _ fewer).bind fun later => .pure _).congr
      fun written term => ⟨?_, ?_⟩
    · rintro ⟨bytes, ⟨docs, freqs⟩, _, spelled, ⟨rest, ⟨_, later⟩, _, ⟨blocks, behind, rfl⟩, ⟨rfl, rfl⟩, rfl⟩,
        rfl⟩
      refine ⟨docs :: blocks, ?_, rfl⟩
      rw [List.append_nil]
      exact .block nothing spelled behind
    · obtain ⟨docIds, freqs⟩ := term
      rintro ⟨blocks, spelled, rfl⟩
      cases spelled with
      | done => exact absurd rfl nothing
      | block _ spelled behind =>
        exact ⟨_, (_, _), _, spelled, ⟨_, (_, _), [], ⟨_, behind, rfl⟩, ⟨rfl, rfl⟩,
          (List.append_nil _).symm⟩, rfl⟩

end Reading

section Shape

theorem SpellsVarints.length {count : Nat} {bytes : List UInt8} {values : List Nat}
    (spelled : SpellsVarints count bytes values) : values.length = count := by
  obtain ⟨words, counted, each, -⟩ := spelled
  rw [← each.length_eq, counted]

theorem SpellsPacked.length {count width : Nat} {bytes : List UInt8} {values : List Nat}
    (spelled : SpellsPacked count width bytes values) : values.length = count := by
  rw [spelled.2, List.length_map, List.length_range]

theorem SpellsExceptions.length {threshold count left : Nat} {previous : Option Nat}
    {deltas patched : List Nat} {bytes : List UInt8}
    (spelled : SpellsExceptions threshold count left previous deltas bytes patched) :
    patched.length = deltas.length := by
  induction spelled with
  | done => rfl
  | patch _ _ _ _ _ _ ih => rw [ih, List.length_set]

theorem SpellsDeltas.length {count : Nat} {mode : UInt8} {bytes : List UInt8} {deltas : List Nat}
    (spelled : SpellsDeltas count mode bytes deltas) : deltas.length = count := by
  cases spelled with
  | varint _ spelled => exact spelled.length
  | packed _ _ _ spelled => exact spelled.length
  | patched _ _ _ _ _ spelled patches => exact patches.length.trans spelled.length

theorem SpellsFreqs.length {count : Nat} {mode : UInt8} {bytes : List UInt8} {freqs : List Nat}
    (spelled : SpellsFreqs count mode bytes freqs) : freqs.length = count := by
  cases spelled with
  | allOnes => exact List.length_replicate
  | constant => exact List.length_replicate
  | packed _ _ _ spelled => exact spelled.length
  | varint _ spelled => exact spelled.length

/-- A block is as long as it says, and its identifiers increase. -/
theorem SpellsBlock.shape {count : Nat} {bytes : List UInt8} {docs freqs : List Nat} (some_left : count ≠ 0)
    (spelled : SpellsBlock count bytes docs freqs) :
    docs.length = count ∧ freqs.length = count ∧ docs.IsChain (· < ·) := by
  obtain ⟨-, -, deltas, increasing, -, frequencies⟩ := spelled
  refine ⟨?_, frequencies.length, increasing⟩
  have steps := deltas.length
  rw [blockDeltas_length] at steps
  rw [List.length_cons] at steps ⊢
  omega

theorem SpellsBlocks.shape {remaining : Nat} {bytes : List UInt8} {blocks : List (List Nat)}
    {freqs : List Nat} (spelled : SpellsBlocks remaining bytes blocks freqs) :
    blocks.flatten.length = remaining ∧ freqs.length = remaining ∧
      ∀ docs ∈ blocks, docs ≠ [] ∧ docs.IsChain (· < ·) := by
  induction spelled with
  | done => simp
  | block some_left here behind ih =>
    obtain ⟨docs_total, freqs_total, each⟩ := ih
    have positive := forBlockSize_pos
    obtain ⟨docs_length, freqs_length, increasing⟩ := here.shape (by omega)
    refine ⟨?_, ?_, List.forall_mem_cons.mpr ⟨⟨?_, increasing⟩, each⟩⟩
    · rw [List.flatten_cons, List.length_append]
      omega
    · rw [List.length_append]
      omega
    · rw [← List.length_pos_iff]
      omega

theorem SpellsBlock.two_le_length {count : Nat} {bytes : List UInt8} {docs freqs : List Nat}
    (spelled : SpellsBlock count bytes docs freqs) : 2 ≤ bytes.length := by
  obtain ⟨-, absolute, -⟩ := spelled
  have word := List.length_pos_iff.mpr absolute.1.ne_nil
  rw [List.length_cons, List.length_append]
  omega

/-- A block takes two bytes at least. -/
theorem SpellsBlocks.length_le {remaining : Nat} {bytes : List UInt8} {blocks : List (List Nat)}
    {freqs : List Nat} (spelled : SpellsBlocks remaining bytes blocks freqs) :
    2 * remaining ≤ forBlockSize * bytes.length := by
  induction spelled with
  | done => exact Nat.zero_le _
  | block _ here _ ih =>
    have two := Nat.mul_le_mul_left forBlockSize here.two_le_length
    rw [List.length_append, Nat.mul_add]
    omega

theorem decode_short {bytes : List UInt8} {n : Nat} (short : bytes.length < 2 * n) :
    ∃ e, decodePostingsBlocked bytes (forBlockSize * n) = .error e := by
  rw [decodePostingsBlocked]
  cases outcome : decodeBlocks (forBlockSize * n) bytes with
  | error e => exact ⟨e, rfl⟩
  | ok reading =>
    obtain ⟨written, ⟨blocks, spelled, -⟩, rfl⟩ := (accepts_blocks _ _ _ _).mp outcome
    have long := spelled.length_le
    rw [List.length_append] at short
    unfold forBlockSize at long
    omega

theorem yields_varints (count : Nat) : Yields (readVarints count) fun values => values.length = count := by
  intro input values rest accepted
  obtain ⟨_, spelled, -⟩ := (accepts_varints count input values rest).mp accepted
  exact spelled.length

end Shape

end Surch.Codec
