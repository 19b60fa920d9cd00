import Surch.Store.Wal

/-! What `flush` writes, `read_file` reads back. -/
namespace Surch.Store
open Surch.Lib Surch.Index Surch.Postings

section Codec

theorem beI32_length (value : Int32) : (beI32 value).length = 4 := beBytes_length _ _

theorem reads_beI32 (value : Int32) : Reads readBeI32 (beI32 value) value := by
  have back : (UInt32.ofNat (beNat (beI32 value))).toInt32 = value := by
    rw [beI32, beNat_beBytes_of_lt (by simpa using value.toUInt32.toNat_lt)]
    simp
  refine (reads_array _ (beI32_length value)).bind_silent ?_
  rw [back]
  exact .pure _

theorem reads_vint {length : Nat} (short : length < 128) :
    Reads (readVint [0, 7, 14, 21, 28] 0) (writeVint 4 length) (UInt32.ofNat length) := by
  have written : writeVint 4 length = [UInt8.ofNat length] := by
    rw [writeVint, if_pos short]
  have last : UInt8.ofNat length &&& 0x80 = 0 ∧
      (0 ||| ((UInt8.ofNat length &&& 0x7f).toUInt32 <<< UInt32.ofNat 0)) = UInt32.ofNat length := by
    have small : ∀ n, n < 128 → UInt8.ofNat n &&& 0x80 = 0 ∧
        (0 ||| ((UInt8.ofNat n &&& 0x7f).toUInt32 <<< UInt32.ofNat 0)) = UInt32.ofNat n := by
      decide +kernel
    exact small length short
  have one : [UInt8.ofNat length].length = 1 := rfl
  rw [written, readVint]
  refine (reads_array _ one).bind_silent ?_
  simp only [List.headD_cons, last.1, last.2, if_true]
  exact .pure _

theorem reads_string {text : String} (short : (utf8 text).length < 128) :
    Reads readString (writeVint 4 (utf8 text).length ++ utf8 text) text := by
  refine (reads_vint short).bind ?_
  have length : (UInt32.ofNat (utf8 text).length).toNat = (utf8 text).length := by
    rw [UInt32.toNat_ofNat']
    omega
  refine (reads_array _ length.symm).bind_silent ?_
  rw [fromUtf8_utf8]
  exact .pure _

theorem walCodec_short : (utf8 walCodec).length = 3 := by
  decide

/-- The header that `write_header` puts first. -/
def headerBytes (codec : String) (version : Int32) : List UInt8 :=
  beI32 codecMagic ++ (writeVint 4 (utf8 codec).length ++ utf8 codec) ++ beI32 version

theorem writeHeader_ok {codec : String} {version : Int32} (named : validateCodecName codec = .ok ()) :
    writeHeader codec version = .ok (headerBytes codec version) := by
  rw [writeHeader, named]
  rfl

theorem reads_checkHeader {codec : String} {version low high : Int32} (short : (utf8 codec).length < 128)
    (above : ¬ version < low) (below : ¬ version > high) :
    Reads (checkHeader codec low high) (headerBytes codec version) version := by
  rw [headerBytes, List.append_assoc]
  apply (reads_beI32 codecMagic).bind
  apply Reads.silent_bind (.refuse (not_not_intro rfl))
  apply (reads_string short).bind
  apply Reads.silent_bind (.refuse (not_not_intro rfl))
  apply (reads_beI32 version).bind_silent
  apply Reads.silent_bind (.refuse above)
  apply Reads.silent_bind (.refuse below)
  exact .pure _

theorem writeHeader_wal : writeHeader walCodec walVersion = .ok (headerBytes walCodec walVersion) :=
  writeHeader_ok (by decide)

theorem reads_header : Reads (checkHeader walCodec walVersion walVersion) (headerBytes walCodec walVersion)
    walVersion :=
  reads_checkHeader (by rw [walCodec_short]; decide) (by decide) (by decide)

theorem writeFooter_length (output : List UInt8) :
    (writeFooter output).length = output.length + footerLength := by
  simp [writeFooter, beI32_length, footerLength]

theorem writeFooter_append (output : List UInt8) :
    ∃ footer, footer.length = footerLength ∧ writeFooter output = output ++ footer := by
  refine ⟨beI32 footerMagic ++ beI32 0 ++ beBytes 8 (crc32Zlib (output ++ beI32 footerMagic ++ beI32 0)).toNat,
    ?_, ?_⟩
  · simp [beI32_length, footerLength]
  · simp only [writeFooter, List.append_assoc]

/-- The checksum in the footer is the one of the bytes before it. -/
theorem checkFooter_writeFooter (output : List UInt8) :
    ∃ checksum, checkFooter (writeFooter output) = .ok checksum := by
  have fields : Reads readFooter
      (beI32 footerMagic ++ beI32 0 ++
        beBytes 8 (crc32Zlib (output ++ beI32 footerMagic ++ beI32 0)).toNat)
      (crc32Zlib (output ++ beI32 footerMagic ++ beI32 0)) := by
    have small := (crc32Zlib (output ++ beI32 footerMagic ++ beI32 0)).toNat_lt
    have back : beNat (beBytes 8 (crc32Zlib (output ++ beI32 footerMagic ++ beI32 0)).toNat) =
        (crc32Zlib (output ++ beI32 footerMagic ++ beI32 0)).toNat :=
      beNat_beBytes_of_lt (by omega)
    rw [List.append_assoc]
    apply (reads_beI32 footerMagic).bind
    apply Reads.silent_bind (.refuse (by decide))
    apply (reads_beI32 0).bind
    apply Reads.silent_bind (.refuse (by decide))
    apply (reads_array _ (beBytes_length _ _)).bind_silent
    rw [back]
    apply Reads.silent_bind (.refuse (by omega))
    rw [UInt32.ofNat_toNat]
    exact .pure _
  have split : writeFooter output = output ++ (beI32 footerMagic ++ beI32 0 ++
      beBytes 8 (crc32Zlib (output ++ beI32 footerMagic ++ beI32 0)).toNat) := by
    simp only [writeFooter, List.append_assoc]
  have length := writeFooter_length output
  have ending : (writeFooter output).drop ((writeFooter output).length - footerLength) =
      beI32 footerMagic ++ beI32 0 ++
        beBytes 8 (crc32Zlib (output ++ beI32 footerMagic ++ beI32 0)).toNat := by
    rw [length, Nat.add_sub_cancel, split, List.drop_left]
  have front : (writeFooter output).take ((writeFooter output).length - 8) =
      output ++ beI32 footerMagic ++ beI32 0 := by
    have eight : (writeFooter output).length - 8 =
        (output ++ beI32 footerMagic ++ beI32 0).length := by
      simp [length, footerLength, beI32_length]
    rw [eight, writeFooter, List.take_left]
  have long : ¬ (writeFooter output).length < footerLength := by omega
  refine ⟨crc32Zlib (output ++ beI32 footerMagic ++ beI32 0), ?_⟩
  simp only [checkFooter, ending, front, fields.exact, refuse_of_not long]
  generalize crc32Zlib (output ++ beI32 footerMagic ++ beI32 0) = checksum
  have same : ¬ checksum ≠ checksum := fun other => other rfl
  change ((refuse (checksum ≠ checksum) (.checksumMismatch checksum checksum) :
    Except CodecUtilError Unit) >>= fun _ => pure checksum) = Except.ok checksum
  rw [refuse_of_not same]
  rfl

end Codec

section Records

/-- What a written record says of its fields: numbers that fit their width and identifiers that pass
validation. -/
structure WalRecord.Sound (record : WalRecord) : Prop where
  sequence_fits : record.sequence < 2 ^ 64
  sequence_pos : 0 < record.sequence
  timestamp_fits : record.timestampMillis < 2 ^ 64
  index_valid : validateIdentifier record.index "index" = .ok ()
  docId_valid : validateIdentifier record.docId "document id" = .ok ()

theorem reads_u64 {value : Nat} (fits : value < 2 ^ 64) : Reads readU64 (beBytes 8 value) value := by
  apply (reads_array _ (beBytes_length 8 value)).bind_silent
  rw [beNat_beBytes_of_lt (by omega)]
  exact .pure _

theorem writePrefixedBytes_ok {field : String} {value written : List UInt8}
    (accepted : writePrefixedBytes field value = .ok written) :
    value.length ≤ maxWalBinaryFieldBytes ∧ written = beBytes 4 value.length ++ value := by
  unfold writePrefixedBytes at accepted
  split at accepted
  · cases accepted
  · rename_i short
    exact ⟨by omega, (Except.ok.inj accepted).symm⟩

theorem reads_prefixedBytes {field : String} {value written : List UInt8}
    (accepted : writePrefixedBytes field value = .ok written) :
    Reads readPrefixedBytes written value := by
  obtain ⟨short, rfl⟩ := writePrefixedBytes_ok accepted
  have back : beNat (beBytes 4 value.length) = value.length :=
    beNat_beBytes_of_lt (lt_of_le_of_lt short (by decide))
  apply (reads_array _ (beBytes_length 4 value.length)).bind
  rw [back]
  apply Reads.silent_bind (.refuse (by omega))
  exact reads_array _ rfl

theorem reads_prefixedString {field : String} {text : String} {written : List UInt8}
    (accepted : writePrefixedBytes field (utf8 text) = .ok written) :
    Reads readPrefixedString written text := by
  apply (reads_prefixedBytes accepted).bind_silent
  rw [fromUtf8_utf8]
  exact .pure _

theorem reads_operation {operation : WalOperation} {written : List UInt8}
    (accepted : operation.encode = .ok written) : Reads readOperation written operation := by
  have marker (byte : UInt8) : Reads readU8 [byte] byte := by
    have one : [byte].length = 1 := rfl
    exact (reads_array endOfInput one).bind_silent (.pure _)
  cases operation with
  | index source =>
    obtain ⟨bytes, prefixed, same⟩ := except_bind_ok.mp accepted
    cases same
    apply (marker 1).symbol_bind
    exact (reads_prefixedBytes prefixed).bind_silent (.pure _)
  | delete =>
    cases accepted
    exact (marker 2).bind_silent (.pure _)

theorem reads_record {record : WalRecord} (sound : record.Sound) {written : List UInt8}
    (accepted : record.encode = .ok written) : Reads WalRecord.decode written record := by
  obtain ⟨index, index_written, accepted⟩ := except_bind_ok.mp accepted
  obtain ⟨docId, docId_written, accepted⟩ := except_bind_ok.mp accepted
  obtain ⟨operation, operation_written, same⟩ := except_bind_ok.mp accepted
  cases same
  simp only [List.append_assoc]
  apply (reads_u64 sound.sequence_fits).bind
  apply (reads_u64 sound.timestamp_fits).bind
  apply (reads_prefixedString index_written).bind
  apply (reads_prefixedString docId_written).bind
  exact (reads_operation operation_written).bind_silent (.pure _)

theorem record_length {record : WalRecord} {written : List UInt8}
    (accepted : record.encode = .ok written) : 0 < written.length := by
  obtain ⟨index, _, accepted⟩ := except_bind_ok.mp accepted
  obtain ⟨docId, _, accepted⟩ := except_bind_ok.mp accepted
  obtain ⟨operation, _, same⟩ := except_bind_ok.mp accepted
  cases same
  simp

end Records

section LogFile

def Numbered (last : Nat) : List WalRecord → Prop
  | [] => True
  | record :: records => record.Sound ∧ last < record.sequence ∧ Numbered record.sequence records

/-- The loop of `read_file` stops at the footer with the records written before it. -/
theorem readEntries_encodeAll {entries : List WalRecord} {last : Nat} (numbered : Numbered last entries)
    {body footer : List UInt8} (accepted : encodeAll entries = .ok body)
    (ending : footer.length = footerLength) {fuel : Nat} (enough : body.length < fuel) :
    readEntries fuel last (body ++ footer) = .ok (entries, footer) := by
  induction entries generalizing last body fuel with
  | nil =>
    cases accepted
    obtain ⟨fuel, rfl⟩ := Nat.exists_eq_succ_of_ne_zero (Nat.ne_of_gt enough)
    rw [readEntries, reader_bind]
    change (if footer.length ≤ footerLength then _ else _ : Reader WalError UInt8 _) footer = _
    rw [if_pos (le_of_eq ending)]
    rfl
  | cons record entries ih =>
    obtain ⟨head, head_written, accepted⟩ := except_bind_ok.mp accepted
    obtain ⟨tail, tail_written, same⟩ := except_bind_ok.mp accepted
    cases same
    obtain ⟨sound, above, rest⟩ := numbered
    have taken := record_length head_written
    rw [List.length_append] at enough
    obtain ⟨fuel, rfl⟩ := Nat.exists_eq_succ_of_ne_zero (Nat.ne_of_gt (Nat.zero_lt_of_lt enough))
    have more : ¬ (head ++ tail ++ footer).length ≤ footerLength := by
      simp only [List.length_append, ending]
      omega
    have later := ih rest tail_written (show tail.length < fuel by omega)
    rw [readEntries, reader_bind]
    change (if (head ++ tail ++ footer).length ≤ footerLength then _ else _ :
      Reader WalError UInt8 _) (head ++ tail ++ footer) = _
    rw [if_neg more, List.append_assoc, (reads_record sound head_written).step,
      (Reads.refuse (Nat.ne_of_gt sound.sequence_pos)).silent_step,
      (Reads.refuse (by omega)).silent_step, (Reads.lift sound.index_valid).silent_step,
      (Reads.lift sound.docId_valid).silent_step, reader_bind, later]
    rfl

theorem readFile_walBytes {entries : List WalRecord} (numbered : Numbered 0 entries)
    {bytes : List UInt8} (written : walBytes entries = .ok bytes) : readFile bytes = .ok entries := by
  unfold walBytes at written
  rw [writeHeader_wal] at written
  obtain ⟨header, here, written⟩ := except_bind_ok.mp written
  cases here
  obtain ⟨body, body_written, same⟩ := except_bind_ok.mp written
  cases same
  generalize headed : headerBytes walCodec walVersion = header
  obtain ⟨footer, ending, whole⟩ := writeFooter_append (header ++ body)
  rw [List.append_assoc] at whole
  have head := reads_header
  rw [headed] at head
  obtain ⟨checksum, checked⟩ := checkFooter_writeFooter (header ++ body)
  have long := writeFooter_length (header ++ body)
  rw [whole] at checked long
  have some_bytes : (header ++ (body ++ footer)).isEmpty = false := by
    rw [List.isEmpty_eq_false_iff]
    intro none
    rw [none] at long
    simp [footerLength] at long
  have entries_read := readEntries_encodeAll numbered body_written ending
    (show body.length < (header ++ (body ++ footer)).length by
      simp only [List.length_append, ending, footerLength]
      omega)
  rw [whole, readFile, checked]
  simp only [some_bytes, StateT.run, head (body ++ footer), Except.mapError]
  change (readEntries _ 0 (body ++ footer) >>= fun read : List WalRecord × List UInt8 =>
    (refuse (read.2.length ≠ footerLength) (.corrupt "WAL has trailing bytes before footer") :
      Except WalError Unit) >>= fun _ => pure read.1) = .ok entries
  rw [entries_read]
  change ((refuse (footer.length ≠ footerLength) (.corrupt "WAL has trailing bytes before footer") :
    Except WalError Unit) >>= fun _ => pure entries) = .ok entries
  rw [refuse_of_not (by omega)]
  rfl

end LogFile

end Surch.Store
