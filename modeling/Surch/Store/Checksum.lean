import Surch.Lib.Crc
import Surch.Store.WalFile

/-! What `read_file` refuses: its records are numbered whatever the bytes, and a log that was changed
inside four consecutive bytes does not pass the checksum in its footer. -/
namespace Surch.Store
open Surch.Lib Surch.Index Surch.Postings

section Polynomial

def crc32Poly : BitVec 32 := 0xedb88320#32

theorem crc32Poly_top : 2 ^ 32 ≤ 2 * crc32Poly.toNat := by
  decide

theorem bit_mask (x : BitVec 32) : 0 - (x &&& 1#32) = if x.getLsbD 0 then BitVec.allOnes 32 else 0#32 := by
  rw [BitVec.and_one_eq_setWidth_ofBool_getLsbD]
  cases x.getLsbD 0 <;> rfl

theorem crc32Rounds_toBitVec (rounds : Nat) (crc : UInt32) :
    (crc32Rounds rounds crc).toBitVec = (Crc.round crc32Poly)^[rounds] crc.toBitVec := by
  induction rounds generalizing crc with
  | zero => rfl
  | succ rounds ih =>
    have one : ((crc >>> 1) ^^^ (0xedb88320 &&& (0 - (crc &&& 1)))).toBitVec =
        Crc.round crc32Poly crc.toBitVec := by
      have mask := bit_mask crc.toBitVec
      have moved : (crc >>> 1).toBitVec = crc.toBitVec >>> 1 := by
        rw [UInt32.toBitVec_shiftRight]
        rfl
      rw [UInt32.toBitVec_xor, UInt32.toBitVec_and, UInt32.toBitVec_sub, UInt32.toBitVec_and, moved]
      change (crc.toBitVec >>> 1) ^^^ (crc32Poly &&& (0 - (crc.toBitVec &&& 1#32))) = _
      rw [mask, Crc.round]
      split
      · rw [BitVec.and_allOnes]
      · rw [BitVec.and_zero]
    rw [crc32Rounds, ih, one, Function.iterate_succ_apply]

def symbol (byte : UInt8) : BitVec 32 := byte.toUInt32.toBitVec

theorem symbol_lt (byte : UInt8) : (symbol byte).toNat < 2 ^ 8 := by
  have small := byte.toNat_lt
  simpa [symbol] using small

theorem symbol_injective : Function.Injective symbol := by
  intro a b same
  have numbers := congrArg BitVec.toNat same
  simpa [symbol, UInt8.toNat_inj] using numbers

theorem crc32Zlib_toBitVec (input : List UInt8) :
    (crc32Zlib input).toBitVec =
      ~~~((input.map symbol).foldl (Crc.feed crc32Poly 8) (0xffffffff : UInt32).toBitVec) := by
  have runs : ∀ crc : UInt32,
      (input.foldl (fun crc byte => crc32Rounds 8 (crc ^^^ byte.toUInt32)) crc).toBitVec =
        (input.map symbol).foldl (Crc.feed crc32Poly 8) crc.toBitVec := by
    induction input with
    | nil => intro crc; rfl
    | cons byte input ih =>
      intro crc
      rw [List.foldl_cons, ih, crc32Rounds_toBitVec, UInt32.toBitVec_xor]
      rfl
  rw [crc32Zlib, UInt32.toBitVec_not, runs]

/-- Four bytes fill the register, so a change of no more than these is seen. -/
theorem crc32Zlib_window {front back xs ys : List UInt8} (lengths : xs.length = ys.length)
    (short : xs.length ≤ 4)
    (same : crc32Zlib (front ++ xs ++ back) = crc32Zlib (front ++ ys ++ back)) : xs = ys := by
  have registers := congrArg UInt32.toBitVec same
  rw [crc32Zlib_toBitVec, crc32Zlib_toBitVec, BitVec.not_inj] at registers
  simp only [List.map_append] at registers
  have small : List.Forall₂ (fun x y : BitVec 32 => x.toNat < 2 ^ 8 ∧ y.toNat < 2 ^ 8)
      (xs.map symbol) (ys.map symbol) := by
    rw [List.forall₂_map_left_iff, List.forall₂_map_right_iff, List.forall₂_iff_zip]
    exact ⟨lengths, fun _ => ⟨symbol_lt _, symbol_lt _⟩⟩
  have room : 8 * (xs.map symbol).length ≤ 32 := by
    rw [List.length_map]
    omega
  exact List.map_injective_iff.mpr symbol_injective
    (Crc.foldl_feed_window crc32Poly_top small room registers)

end Polynomial

section Window

/- As long as the other, and different from it inside `width` consecutive places at most. -/
def WithinWindow (width : Nat) (bytes changed : List UInt8) : Prop :=
  changed.length = bytes.length ∧
    ∃ start, ∀ i, i < start ∨ start + width ≤ i → changed[i]? = bytes[i]?

theorem WithinWindow.take {width : Nat} {bytes changed : List UInt8}
    (window : WithinWindow width bytes changed) (n : Nat) :
    WithinWindow width (bytes.take n) (changed.take n) := by
  obtain ⟨length, start, outside⟩ := window
  refine ⟨by simp only [List.length_take, length], start, fun i place => ?_⟩
  by_cases inside : i < n
  · rw [List.getElem?_take_of_lt inside, List.getElem?_take_of_lt inside, outside i place]
  · rw [List.getElem?_take_eq_none (by omega), List.getElem?_take_eq_none (by omega)]

theorem WithinWindow.close {width : Nat} {bytes changed : List UInt8}
    (window : WithinWindow width bytes changed) {i j : Nat} (first : changed[i]? ≠ bytes[i]?)
    (second : changed[j]? ≠ bytes[j]?) : j < i + width := by
  obtain ⟨-, start, outside⟩ := window
  have high : ¬ (i < start ∨ start + width ≤ i) := fun place => first (outside i place)
  have low : ¬ (j < start ∨ start + width ≤ j) := fun place => second (outside j place)
  omega

theorem WithinWindow.parts {width : Nat} {bytes changed : List UInt8}
    (window : WithinWindow width bytes changed) :
    ∃ front xs ys back, bytes = front ++ xs ++ back ∧ changed = front ++ ys ++ back ∧
      xs.length = ys.length ∧ xs.length ≤ width := by
  obtain ⟨length, start, outside⟩ := window
  have fronts : changed.take start = bytes.take start := by
    apply List.ext_getElem?
    intro i
    by_cases inside : i < start
    · rw [List.getElem?_take_of_lt inside, List.getElem?_take_of_lt inside, outside i (.inl inside)]
    · rw [List.getElem?_take_eq_none (by omega), List.getElem?_take_eq_none (by omega)]
  have backs : changed.drop (start + width) = bytes.drop (start + width) := by
    apply List.ext_getElem?
    intro i
    rw [List.getElem?_drop, List.getElem?_drop, outside _ (.inr (Nat.le_add_right _ _))]
  have whole : ∀ text : List UInt8,
      text = text.take start ++ (text.drop start).take width ++ text.drop (start + width) := by
    intro text
    rw [List.append_assoc, ← List.drop_drop, List.take_append_drop, List.take_append_drop]
  refine ⟨bytes.take start, (bytes.drop start).take width, (changed.drop start).take width,
    bytes.drop (start + width), whole bytes, ?_, ?_, ?_⟩
  · rw [← fronts, ← backs]
    exact whole changed
  · simp only [List.length_take, List.length_drop, length]
  · exact List.length_take_le _ _

theorem crc32Zlib_within {bytes changed : List UInt8} (window : WithinWindow 4 bytes changed)
    (same : crc32Zlib changed = crc32Zlib bytes) : changed = bytes := by
  obtain ⟨front, xs, ys, back, rfl, rfl, lengths, short⟩ := window.parts
  rw [crc32Zlib_window lengths short same.symm]

end Window

section Footer

theorem readFooter_ok {input rest : List UInt8} {checksum : UInt32}
    (length : input.length = footerLength) (accepted : readFooter input = .ok (checksum, rest)) :
    input.drop 8 = beBytes 8 checksum.toNat := by
  have four : ∀ {input rest : List UInt8} {value : Int32}, readBeI32 input = .ok (value, rest) →
      rest = input.drop 4 := by
    intro input rest value read
    obtain ⟨bytes, left, taken, same⟩ := reader_bind_ok.mp read
    cases same
    exact (readArray_ok.mp taken).2.2
  obtain ⟨magic, left, read, accepted⟩ := reader_bind_ok.mp accepted
  obtain rfl := four read
  obtain ⟨_, _, passed, accepted⟩ := reader_bind_ok.mp accepted
  obtain ⟨-, rfl⟩ := reader_refuse_ok.mp passed
  obtain ⟨algorithm, left, read, accepted⟩ := reader_bind_ok.mp accepted
  obtain rfl := four read
  obtain ⟨_, _, passed, accepted⟩ := reader_bind_ok.mp accepted
  obtain ⟨-, rfl⟩ := reader_refuse_ok.mp passed
  obtain ⟨bytes, left, read, accepted⟩ := reader_bind_ok.mp accepted
  obtain ⟨-, taken, -⟩ := readArray_ok.mp read
  obtain ⟨_, _, passed, returned⟩ := reader_bind_ok.mp accepted
  obtain ⟨small, -⟩ := reader_refuse_ok.mp passed
  obtain ⟨rfl, -⟩ := Prod.mk.inj (Except.ok.inj returned)
  rw [List.drop_drop] at taken
  have all : bytes = input.drop 8 := by
    rw [taken, List.take_of_length_le (by rw [List.length_drop, length]; decide)]
  have eight : bytes.length = 8 := by
    rw [all, List.length_drop, length]
    decide
  have back := beBytes_beNat bytes
  rw [eight] at back
  rw [← all, UInt32.toNat_ofNat_of_lt' (by simpa using small), back]

theorem checkFooter_ok {bytes : List UInt8} {checksum : UInt32}
    (accepted : checkFooter bytes = .ok checksum) :
    footerLength ≤ bytes.length ∧ bytes.drop (bytes.length - 8) =
      beBytes 8 (crc32Zlib (bytes.take (bytes.length - 8))).toNat := by
  obtain ⟨_, long, accepted⟩ := except_bind_ok.mp accepted
  obtain ⟨⟨expected, rest⟩, read, accepted⟩ := except_bind_ok.mp accepted
  obtain ⟨_, same, -⟩ := except_bind_ok.mp accepted
  have enough : footerLength ≤ bytes.length := by
    by_contra short
    rw [refuse, if_pos (by omega)] at long
    cases long
  have equal : expected = crc32Zlib (bytes.take (bytes.length - 8)) := by
    by_contra other
    rw [refuse, if_pos other] at same
    cases same
  have ending := readFooter_ok (by rw [List.length_drop]; omega) read
  rw [List.drop_drop] at ending
  refine ⟨enough, ?_⟩
  rw [← equal, ← ending]
  congr 1
  simp only [footerLength] at enough ⊢
  omega

theorem checkFooter_writeFooter_ok (output : List UInt8) :
    (writeFooter output).drop ((writeFooter output).length - 8) =
      beBytes 8 (crc32Zlib ((writeFooter output).take ((writeFooter output).length - 8))).toNat := by
  obtain ⟨checksum, accepted⟩ := checkFooter_writeFooter output
  exact (checkFooter_ok accepted).2

theorem checksum_upper (checksum : UInt32) {i : Nat} (upper : i < 4) :
    (beBytes 8 checksum.toNat)[i]? = some 0 := by
  have small := checksum.toNat_lt
  have clear : ∀ n : Nat, n < 2 ^ 32 → (beBytes 8 n).take 4 = [0, 0, 0, 0] := by
    intro n bound
    have high : ∀ k, 4 ≤ k → n / 256 ^ k = 0 := by
      intro k above
      apply Nat.div_eq_of_lt
      calc n < 256 ^ 4 := by omega
        _ ≤ 256 ^ k := Nat.pow_le_pow_right (by decide) above
    have four : n / 256 / 256 / 256 / 256 = 0 := by omega
    simp [beBytes, leBytes, four]
  rw [← List.getElem?_take_of_lt upper, clear _ small]
  have places : ∀ i < 4, ([0, 0, 0, 0] : List UInt8)[i]? = some 0 := by decide
  exact places i upper

theorem exists_difference {xs ys : List UInt8} (other : xs ≠ ys) : ∃ i : Nat, xs[i]? ≠ ys[i]? := by
  by_contra none
  push Not at none
  exact other (List.ext_getElem? none)

/-- Bytes that carry their own checksum, changed inside four consecutive places, do not carry it any
more. The window reaches the lower half of the checksum only from places that the checksum does not
cover. -/
theorem checksum_within {bytes changed : List UInt8}
    (carried : bytes.drop (bytes.length - 8) =
      beBytes 8 (crc32Zlib (bytes.take (bytes.length - 8))).toNat)
    (window : WithinWindow 4 bytes changed)
    (still : changed.drop (changed.length - 8) =
      beBytes 8 (crc32Zlib (changed.take (changed.length - 8))).toNat) : changed = bytes := by
  rw [window.1] at still
  generalize bytes.length - 8 = n at carried still
  by_cases same : crc32Zlib (changed.take n) = crc32Zlib (bytes.take n)
  · have heads := crc32Zlib_within (window.take n) same
    rw [← List.take_append_drop n changed, ← List.take_append_drop n bytes, heads, still, carried, same]
  · have heads : changed.take n ≠ bytes.take n := fun equal => same (by rw [equal])
    have tails : changed.drop n ≠ bytes.drop n := by
      rw [still, carried]
      intro equal
      have numbers := congrArg beNat equal
      have fits : ∀ crc : UInt32, beNat (beBytes 8 crc.toNat) = crc.toNat := by
        intro crc
        have small := crc.toNat_lt
        exact beNat_beBytes_of_lt (by omega)
      rw [fits, fits] at numbers
      exact same (UInt32.toNat_inj.mp numbers)
    obtain ⟨i, first⟩ := exists_difference heads
    obtain ⟨j, second⟩ := exists_difference tails
    have early : i < n := by
      by_contra late
      rw [List.getElem?_take_eq_none (by omega), List.getElem?_take_eq_none (by omega)] at first
      exact first rfl
    have lower : 4 ≤ j := by
      by_contra upper
      rw [still, carried, checksum_upper _ (by omega), checksum_upper _ (by omega)] at second
      exact second rfl
    rw [List.getElem?_take_of_lt early, List.getElem?_take_of_lt early] at first
    rw [List.getElem?_drop, List.getElem?_drop] at second
    have near := window.close first second
    omega

end Footer

section Refused

theorem readFile_ok {bytes : List UInt8} {entries : List WalRecord}
    (accepted : readFile bytes = .ok entries) :
    bytes = [] ∧ entries = [] ∨ (∃ checksum, checkFooter bytes = .ok checksum) ∧
      ∃ body rest, readEntries bytes.length 0 body = .ok (entries, rest) := by
  unfold readFile at accepted
  split at accepted
  · rename_i empty
    cases accepted
    exact .inl ⟨List.isEmpty_iff.mp empty, rfl⟩
  · obtain ⟨checksum, checked, accepted⟩ := except_bind_ok.mp accepted
    obtain ⟨⟨version, body⟩, -, accepted⟩ := except_bind_ok.mp accepted
    obtain ⟨⟨read, rest⟩, here, accepted⟩ := except_bind_ok.mp accepted
    obtain ⟨_, -, same⟩ := except_bind_ok.mp accepted
    cases same
    refine .inr ⟨?_, body, rest, here⟩
    cases outcome : checkFooter bytes with
    | ok checksum => exact ⟨checksum, rfl⟩
    | error e =>
      rw [outcome] at checked
      cases checked

theorem yields_readU64 : Yields readU64 (· < 2 ^ 64) := by
  intro input value rest accepted
  obtain ⟨bytes, left, taken, same⟩ := reader_bind_ok.mp accepted
  obtain ⟨enough, rfl, -⟩ := readArray_ok.mp taken
  cases same
  have bound := beNat_lt (input.take 8)
  rw [List.length_take_of_le enough] at bound
  calc beNat (input.take 8) < 256 ^ 8 := bound
    _ = 2 ^ 64 := by decide

theorem yields_decode :
    Yields WalRecord.decode fun record => record.sequence < 2 ^ 64 ∧ record.timestampMillis < 2 ^ 64 := by
  refine yields_readU64.bind fun sequence sequence_fits => ?_
  refine yields_readU64.bind fun timestamp timestamp_fits => ?_
  refine Yields.bind_any fun index => Yields.bind_any fun docId => Yields.bind_any fun operation => ?_
  exact .pure ⟨sequence_fits, timestamp_fits⟩

theorem yields_refuse {bad : Prop} [Decidable bad] {error : WalError} :
    Yields (refuse bad error : Reader WalError UInt8 Unit) fun _ => ¬ bad :=
  fun _ _ _ accepted => (reader_refuse_ok.mp accepted).1

theorem yields_lift {check : Except WalError Unit} :
    Yields (liftM check : Reader WalError UInt8 Unit) fun _ => check = .ok () := by
  intro input value rest accepted
  cases check with
  | ok => rfl
  | error e => cases accepted

theorem yields_readEntries (fuel last : Nat) : Yields (readEntries fuel last) (Numbered last) := by
  induction fuel generalizing last with
  | zero => exact .pure trivial
  | succ fuel ih =>
    rw [readEntries]
    refine Yields.bind_any fun rest => .ite (fun _ => .pure trivial) fun _ => ?_
    refine yields_decode.bind fun record fits => ?_
    refine yields_refuse.bind fun _ positive => yields_refuse.bind fun _ above => ?_
    refine yields_lift.bind fun _ index_valid => yields_lift.bind fun _ docId_valid => ?_
    refine (ih record.sequence).bind fun entries numbered => .pure ?_
    exact ⟨⟨fits.1, Nat.pos_of_ne_zero positive, fits.2, index_valid, docId_valid⟩,
      Nat.lt_of_not_le above, numbered⟩

theorem readFile_numbered {bytes : List UInt8} {entries : List WalRecord}
    (accepted : readFile bytes = .ok entries) : Numbered 0 entries := by
  obtain ⟨-, rfl⟩ | ⟨-, body, rest, read⟩ := readFile_ok accepted
  · trivial
  · exact yields_readEntries _ _ _ _ _ read

/- The fields that carry a length are at most four mebibytes. -/
def WalRecord.Fits (record : WalRecord) : Prop :=
  (utf8 record.index).length ≤ maxWalBinaryFieldBytes ∧
    (utf8 record.docId).length ≤ maxWalBinaryFieldBytes ∧
    ∀ source, record.operation = .index source → source.length ≤ maxWalBinaryFieldBytes

theorem writePrefixedBytes_of_le {field : String} {value : List UInt8}
    (short : value.length ≤ maxWalBinaryFieldBytes) :
    writePrefixedBytes field value = .ok (beBytes 4 value.length ++ value) := by
  rw [writePrefixedBytes, if_neg (by omega)]

theorem encode_of_fits {record : WalRecord} (fits : record.Fits) :
    ∃ bytes, record.encode = .ok bytes := by
  obtain ⟨index, docId, source⟩ := fits
  have operation : ∃ bytes, record.operation.encode = .ok bytes := by
    cases kind : record.operation with
    | index written =>
      rw [WalOperation.encode, writePrefixedBytes_of_le (source written kind)]
      exact ⟨_, rfl⟩
    | delete => exact ⟨[2], rfl⟩
  obtain ⟨written, encoded⟩ := operation
  rw [WalRecord.encode, writePrefixedBytes_of_le index, writePrefixedBytes_of_le docId, encoded]
  exact ⟨_, rfl⟩

theorem encodeAll_of_fits {entries : List WalRecord} (fits : ∀ record ∈ entries, record.Fits) :
    ∃ bytes, encodeAll entries = .ok bytes := by
  induction entries with
  | nil => exact ⟨[], rfl⟩
  | cons record entries ih =>
    obtain ⟨head, first⟩ := encode_of_fits (fits record List.mem_cons_self)
    obtain ⟨tail, later⟩ := ih fun other member => fits other (List.mem_cons_of_mem _ member)
    rw [encodeAll, first, later]
    exact ⟨_, rfl⟩

theorem walBytes_of_fits {entries : List WalRecord} (fits : ∀ record ∈ entries, record.Fits) :
    ∃ bytes, walBytes entries = .ok bytes := by
  obtain ⟨body, encoded⟩ := encodeAll_of_fits fits
  rw [walBytes, writeHeader_wal, encoded]
  exact ⟨_, rfl⟩

theorem walBytes_footer {entries : List WalRecord} {bytes : List UInt8}
    (written : walBytes entries = .ok bytes) : ∃ output, bytes = writeFooter output := by
  obtain ⟨header, -, written⟩ := except_bind_ok.mp written
  obtain ⟨body, -, same⟩ := except_bind_ok.mp written
  cases same
  exact ⟨_, rfl⟩

/-- Changed inside four consecutive bytes, a flushed log is refused. -/
theorem readFile_within {output changed : List UInt8}
    (window : WithinWindow 4 (writeFooter output) changed) (other : changed ≠ writeFooter output) :
    ∃ error, readFile changed = .error error := by
  cases outcome : readFile changed with
  | error e => exact ⟨e, rfl⟩
  | ok entries =>
    obtain ⟨rfl, -⟩ | ⟨⟨checksum, checked⟩, -⟩ := readFile_ok outcome
    · have none := window.1
      rw [List.length_nil, writeFooter_length] at none
      simp only [footerLength] at none
      omega
    · have still := (checkFooter_ok checked).2
      exact absurd (checksum_within (checkFooter_writeFooter_ok output) window still) other

/-- A log is read back as it was flushed, what is read is numbered, and a log that was changed inside four
bytes is not read. -/
theorem wal_file_format :
    (∀ entries, Numbered 0 entries → (∀ record ∈ entries, record.Fits) →
      ∃ bytes, walBytes entries = .ok bytes ∧ readFile bytes = .ok entries) ∧
    (∀ bytes entries, readFile bytes = .ok entries → Numbered 0 entries) ∧
    (∀ entries bytes changed, walBytes entries = .ok bytes → WithinWindow 4 bytes changed →
      changed ≠ bytes → ∃ error, readFile changed = .error error) := by
  refine ⟨fun entries numbered fits => ?_, fun _ _ accepted => readFile_numbered accepted, ?_⟩
  · obtain ⟨bytes, written⟩ := walBytes_of_fits fits
    exact ⟨bytes, written, readFile_walBytes numbered written⟩
  · intro entries bytes changed written window other
    obtain ⟨output, rfl⟩ := walBytes_footer written
    exact readFile_within window other

def sampleRecords : List WalRecord :=
  [⟨1, 1000, "people", "1", .index (utf8 "\x7b\x7d")⟩, ⟨2, 1001, "people", "1", .delete⟩]

/-- Two records are read back, and not when a byte of the first is another one. -/
theorem wal_file_format_two_records :
    ∃ bytes, walBytes sampleRecords = .ok bytes ∧ readFile bytes = .ok sampleRecords ∧
      Numbered 0 sampleRecords ∧ bytes[20]? = some 0 ∧
      ∃ error, readFile (bytes.set 20 255) = .error error := by
  obtain ⟨written, numbered, refused⟩ := wal_file_format
  have fits : ∀ record ∈ sampleRecords, record.Fits := by
    rw [sampleRecords, List.forall_mem_cons, List.forall_mem_singleton]
    refine ⟨⟨by decide +kernel, by decide +kernel, ?_⟩, by decide +kernel, by decide +kernel, ?_⟩
    · rintro _ ⟨⟩
      decide +kernel
    · rintro _ ⟨⟩
  have ordered : Numbered 0 sampleRecords :=
    ⟨⟨by decide, by decide, by decide, by decide +kernel, by decide +kernel⟩, by decide,
      ⟨by decide, by decide, by decide, by decide +kernel, by decide +kernel⟩, by decide, trivial⟩
  obtain ⟨bytes, encoded, read⟩ := written sampleRecords ordered fits
  have byte : (walBytes sampleRecords).toOption.bind (fun bytes => bytes[20]?) = some 0 := by
    decide +kernel
  rw [encoded] at byte
  have here : bytes[20]? = some 0 := byte
  refine ⟨bytes, encoded, read, numbered bytes _ read, here, refused _ _ _ encoded ?_ fun same => ?_⟩
  · refine ⟨List.length_set, 20, fun i outside => ?_⟩
    rw [List.getElem?_set_ne (by omega)]
  · obtain ⟨inside, -⟩ := List.getElem?_eq_some_iff.mp here
    rw [← same, List.getElem?_set_self inside] at here
    exact absurd here (by decide)

end Refused

end Surch.Store
