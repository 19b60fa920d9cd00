import Surch.Index.CommitReads

/-! A commit that is written is read back, and the newest of the files that commits have written is found by
its name. -/
namespace Surch.Index
open Surch.Lib Surch.Lib.Leb128 Surch.Store

section Base36

theorem base36Digit_char {digit : Nat} (small : digit < 36) : base36Digit (base36Char digit) = some digit := by
  have all : ∀ digit, digit < 36 → base36Digit (base36Char digit) = some digit := by decide +kernel
  exact all digit small

theorem base36Char_ascii {digit : Nat} (small : digit < 36) : (base36Char digit).utf8Size = 1 := by
  have all : ∀ digit, digit < 36 → (base36Char digit).utf8Size = 1 := by decide +kernel
  exact all digit small

theorem parseBase36Loop_cons (ch : Char) (rest : List Char) (parsed : Nat) :
    parseBase36Loop (ch :: rest) parsed = (base36Digit ch).bind fun digit =>
      if parsed * 36 + digit < 2 ^ 63 then parseBase36Loop rest (parsed * 36 + digit) else none := by
  rw [parseBase36Loop]
  cases base36Digit ch with
  | none => rfl
  | some digit =>
    change (if parsed * 36 < 2 ^ 63 then _ else none) = if _ then _ else none
    by_cases shifted : parsed * 36 < 2 ^ 63
    · rw [if_pos shifted]
      rfl
    · rw [if_neg shifted, if_neg (by omega)]

theorem parseBase36Loop_append (front back : List Char) (parsed : Nat) :
    parseBase36Loop (front ++ back) parsed = (parseBase36Loop front parsed).bind (parseBase36Loop back) := by
  induction front generalizing parsed with
  | nil => rfl
  | cons ch front ih =>
    rw [List.cons_append, parseBase36Loop_cons, parseBase36Loop_cons, Option.bind_assoc]
    congr 1
    funext digit
    split
    · exact ih _
    · rfl

theorem parseBase36Loop_digits {digits : List Nat} (small : ∀ digit ∈ digits, digit < 36)
    (fits : Nat.ofDigits 36 digits < 2 ^ 63) :
    parseBase36Loop (digits.map base36Char).reverse 0 = some (Nat.ofDigits 36 digits) := by
  induction digits with
  | nil => rfl
  | cons digit digits ih =>
    obtain ⟨here, later⟩ := List.forall_mem_cons.mp small
    have value : Nat.ofDigits 36 (digit :: digits) = Nat.ofDigits 36 digits * 36 + digit := by
      rw [Nat.ofDigits_cons]
      omega
    rw [value] at fits
    rw [List.map_cons, List.reverse_cons, parseBase36Loop_append, ih later (by omega), Option.bind_some,
      parseBase36Loop_cons, base36Digit_char here, Option.bind_some, if_pos fits, value]
    rfl

theorem formatBase36_toList {value : Nat} (positive : 0 < value) :
    (formatBase36 value).toList = ((Nat.digits 36 value).map base36Char).reverse := by
  have other : ¬ (value : Int) = 0 := by omega
  have sign : ¬ (value : Int) < 0 := by omega
  rw [formatBase36, if_neg other, Int.natAbs_natCast]
  simp only [if_neg sign, String.toList_ofList]

theorem parseBase36_format {value : Nat} (positive : 0 < value) (small : value < 2 ^ 63) :
    parseBase36 (formatBase36 value).toList = some value := by
  have back := Nat.ofDigits_digits 36 value
  have digits := parseBase36Loop_digits (fun digit member => Nat.digits_lt_base (by decide) member)
    (show Nat.ofDigits 36 (Nat.digits 36 value) < 2 ^ 63 by rw [back]; exact small)
  have full : ((Nat.digits 36 value).map base36Char).reverse ≠ [] := by
    simp [Nat.digits_ne_nil_iff_ne_zero, Nat.ne_of_gt positive]
  rw [formatBase36_toList positive, parseBase36, if_neg full, digits, back]

theorem formatBase36_length {value : Nat} (positive : 0 < value) (small : value < 2 ^ 63) :
    (utf8 (formatBase36 value)).length < 256 := by
  have digits : (Nat.digits 36 value).length ≤ 13 :=
    (Nat.digits_length_le_iff (by decide) value).mpr (small.trans (by decide))
  have ascii : ∀ ch ∈ (formatBase36 value).toList, (String.utf8EncodeChar ch).length = 1 := by
    intro ch member
    rw [formatBase36_toList positive, List.mem_reverse] at member
    obtain ⟨digit, inside, rfl⟩ := List.mem_map.mp member
    rw [String.length_utf8EncodeChar]
    exact base36Char_ascii (Nat.digits_lt_base (by decide) inside)
  rw [utf8_eq_flatMap, List.length_flatMap, List.map_congr_left ascii, List.map_const', List.sum_replicate,
    formatBase36_toList positive, List.length_reverse, List.length_map, nsmul_one]
  simp only [Nat.cast_id]
  omega

end Base36

section Names

theorem generation_fileName {generation : Nat} (positive : 0 < generation) (small : generation < 2 ^ 63) :
    ∃ fileName, fileNameFromGeneration segmentsName "" generation = some fileName ∧
      fileName.toList = segmentsName.toList ++ '_' :: (formatBase36 generation).toList ∧
      generationFromSegmentsFileName fileName = .ok generation := by
  have other : ¬ (generation : Int) = -1 := by omega
  have zero : ¬ (generation : Int) = 0 := by omega
  have text : (segmentsName ++ "_" ++ formatBase36 generation ++ "").toList =
      segmentsName.toList ++ '_' :: (formatBase36 generation).toList := by
    simp [String.toList_append]
  refine ⟨segmentsName ++ "_" ++ formatBase36 generation ++ "", ?_, text, ?_⟩
  · rw [fileNameFromGeneration, if_neg other, if_neg zero, if_pos rfl]
  · have gen : segmentsName ++ "_" ++ formatBase36 generation ++ "" ≠ oldSegmentsGen := by
      intro same
      have chars := congrArg String.toList same
      rw [text] at chars
      have ninth := congrArg (fun chars => chars[8]?) chars
      have dot : oldSegmentsGen.toList[8]? = some '.' := by decide
      have here : 8 - segmentsName.toList.length = 0 := by decide
      simp only [List.getElem?_append_right (show segmentsName.toList.length ≤ 8 by decide), here,
        List.getElem?_cons_zero, dot] at ninth
      exact absurd (Option.some.inj ninth) (by decide)
    have bare : segmentsName ++ "_" ++ formatBase36 generation ++ "" ≠ segmentsName := by
      intro same
      have chars := congrArg (fun name => name.toList.length) same
      simp only [text, List.length_append, List.length_cons] at chars
      omega
    rw [generationFromSegmentsFileName, if_neg gen, if_neg bare, text,
      if_pos (List.isPrefixOf_iff_prefix.mpr (List.prefix_append _ _)), List.drop_left]
    have single : ¬ ('_' : Char).utf8Size ≠ 1 := by decide
    simp only [if_neg single, parseBase36_format positive small]

end Names

section Fields

/- What is said of lengths that are cast to an `i32`. -/
def SmallString (text : String) : Prop := (utf8 text).length < 2 ^ 31

def SmallSet (set : StringSet) : Prop := set.keys.length < 2 ^ 31 ∧ ∀ text ∈ set.keys, SmallString text

def SmallMap (map : SortedMap String String) : Prop :=
  map.entries.length < 2 ^ 31 ∧ ∀ entry ∈ map.entries, SmallString entry.1 ∧ SmallString entry.2

instance (text : String) : Decidable (SmallString text) := inferInstanceAs (Decidable (_ < _))

instance (set : StringSet) : Decidable (SmallSet set) := inferInstanceAs (Decidable (_ ∧ _))

instance (map : SortedMap String String) : Decidable (SmallMap map) := inferInstanceAs (Decidable (_ ∧ _))

structure SegmentCommitInfo.Small (segment : SegmentCommitInfo) : Prop where
  name : SmallString segment.metadata.name
  codec : SmallString segment.metadata.codec
  fieldInfosFiles : SmallSet segment.fieldInfosFiles
  docValuesUpdateFiles : segment.docValuesUpdateFiles.entries.length < 2 ^ 31 ∧
    ∀ entry ∈ segment.docValuesUpdateFiles.entries, SmallSet entry.2

structure SegmentInfos.Small (infos : SegmentInfos) : Prop where
  segments : infos.segments.length < 2 ^ 31 ∧ ∀ segment ∈ infos.segments, segment.Small
  userData : SmallMap infos.userData

namespace SegmentInfos

theorem reads_vint (value : Int32) : Reads readVint (writeVint value) value := by
  have small := value.toUInt32.toNat_lt
  refine (reads_writeGroups (small.trans (by decide)) small (by decide)).bind_silent ?_
  rw [UInt32.ofNat_toNat, Int32.toInt32_toUInt32]
  exact .pure value

theorem reads_vlong (value : UInt64) : Reads readVlong (writeVlong value) value := by
  have small := value.toNat_lt
  refine (reads_writeGroups (small.trans (by decide)) small (by decide)).bind_silent ?_
  rw [UInt64.ofNat_toNat]
  exact .pure value

theorem reads_byte (byte : UInt8) : Reads readByte [byte] byte :=
  (reads_array _ (show [byte].length = 1 from rfl)).bind_silent (.pure byte)

theorem reads_id (id : Id) : Reads readId id.val id := by
  intro rest
  have long : 16 ≤ (id.val ++ rest).length := by
    rw [List.length_append, id.property]
    exact Nat.le_add_right _ _
  rw [readId, dif_pos long]
  simp only [List.take_left' id.property, List.drop_left' id.property]

theorem reads_beI32 (value : Int32) : Reads readBeI32 (beI32 value) value := by
  have back : (UInt32.ofNat (beNat (beI32 value))).toInt32 = value := by
    rw [beI32, beNat_beBytes_of_lt (by simpa using value.toUInt32.toNat_lt)]
    simp
  refine (reads_array _ (beI32_length value)).bind_silent ?_
  rw [back]
  exact .pure _

theorem reads_beI64 (value : Int64) : Reads readBeI64 (writeBeI64 value) value := by
  have back : (UInt64.ofNat (beNat (writeBeI64 value))).toInt64 = value := by
    rw [writeBeI64, beNat_beBytes_of_lt (by simpa using value.toUInt64.toNat_lt)]
    simp
  refine (reads_array _ (show (writeBeI64 value).length = 8 from beBytes_length _ _)).bind_silent ?_
  rw [back]
  exact .pure _

theorem reads_utf8 (text : String) : Reads (readUtf8 (utf8 text).length) (utf8 text) text := by
  refine (reads_array _ rfl).bind_silent ?_
  rw [fromUtf8_utf8]
  exact .pure _

theorem int32_ofNat {n : Nat} (small : n < 2 ^ 31) :
    ¬ Int32.ofNat n < 0 ∧ (Int32.ofNat n).toInt.toNat = n := by
  have value : (Int32.ofNat n).toInt = n := by
    rw [Int32.toInt_ofNat', Int.bmod_def, show Int32.size = 2 ^ 32 from rfl]
    split <;> omega
  constructor
  · rw [Int32.lt_iff_toInt_lt, value]
    exact Int.not_lt_of_ge (Int.natCast_nonneg n)
  · rw [value]
    exact Int.toNat_natCast n

theorem reads_count {n : Nat} (small : n < 2 ^ 31) (negative : Int32 → SegmentInfosError) :
    Reads (readCount negative) (writeVint (Int32.ofNat n)) n := by
  obtain ⟨sign, value⟩ := int32_ofNat small
  refine (reads_vint (Int32.ofNat n)).bind_silent ?_
  refine Reads.silent_bind (.refuse sign) ?_
  rw [value]
  exact .pure n

theorem reads_string {text : String} (small : SmallString text) : Reads readString (writeString text) text :=
  (reads_count small _).bind (reads_utf8 text)

theorem reads_byteString {text : String} (short : (utf8 text).length < 256) :
    Reads readByteString (UInt8.ofNat (utf8 text).length :: utf8 text) text := by
  have length : (UInt8.ofNat (utf8 text).length).toNat = (utf8 text).length := by
    rw [UInt8.toNat_ofNat', Nat.mod_eq_of_lt short]
  refine (reads_byte (UInt8.ofNat (utf8 text).length)).symbol_bind ?_
  rw [length]
  exact reads_utf8 text

theorem foldl_insert (set : StringSet) :
    set.keys.foldl (fun set value => set.upsert value fun _ => ()) .empty = set := by
  apply SortedMap.ext_get?
  intro text
  refine (SortedMap.get?_ofKeys set.keys (fun _ => ()) text).trans ?_
  split
  · obtain ⟨_, found⟩ := (set.mem_keys_iff text).mp ‹_›
    exact found.symm
  · exact ((set.get?_eq_none_iff text).mpr ‹_›).symm

theorem reads_setOfStrings {set : StringSet} (small : SmallSet set) :
    Reads readSetOfStrings (writeSetOfStrings set) set := by
  refine (reads_count small.1 _).bind ?_
  refine (reads_many fun text member => reads_string (small.2 text member)).bind_silent ?_
  rw [foldl_insert]
  exact .pure set

theorem reads_mapOfStrings {map : SortedMap String String} (small : SmallMap map) :
    Reads readMapOfStrings (writeMapOfStrings map) map := by
  refine (reads_count small.1 _).bind ?_
  refine (reads_many (fun entry member => ?_)).bind_silent ?_
  · obtain ⟨key, value⟩ := small.2 entry member
    exact (reads_string key).bind ((reads_string value).bind_silent (.pure entry))
  · change Reads (Pure.pure (SortedMap.empty.extend map)) [] map
    rw [SortedMap.empty_extend]
    exact .pure map

theorem reads_sciId (id : Option Id) :
    Reads readSciId (match id with | some id => 1 :: id.val | none => [0]) id := by
  cases id with
  | none => exact (reads_byte 0).bind_silent (.pure none)
  | some id => exact (reads_byte 1).symbol_bind ((reads_id id).bind_silent (.pure (some id)))

theorem reads_docValuesUpdateFiles {files : SortedMap Int32 StringSet} (short : files.entries.length < 2 ^ 31)
    (small : ∀ entry ∈ files.entries, SmallSet entry.2) :
    Reads readDocValuesUpdateFiles (beI32 (Int32.ofNat files.entries.length) ++
      files.entries.flatMap fun entry => beI32 entry.1 ++ writeSetOfStrings entry.2) files := by
  obtain ⟨sign, value⟩ := int32_ofNat short
  refine (reads_beI32 _).bind ?_
  refine Reads.silent_bind (.refuse sign) ?_
  rw [value]
  refine (reads_many (fun entry member => ?_)).bind_silent ?_
  · exact (reads_beI32 entry.1).bind ((reads_setOfStrings (small entry member)).bind_silent (.pure entry))
  · change Reads (Pure.pure (SortedMap.empty.extend files)) [] files
    rw [SortedMap.empty_extend]
    exact .pure files

theorem reads_segmentCommitInfo {segment : SegmentCommitInfo} (small : segment.Small) :
    Reads readSegmentCommitInfo (writeSegmentCommitInfo segment) segment := by
  simp only [writeSegmentCommitInfo, List.append_assoc]
  refine (reads_string small.name).bind ?_
  refine (reads_id segment.metadata.id).bind ?_
  refine (reads_string small.codec).bind ?_
  refine (reads_beI64 segment.delGen).bind ?_
  refine (reads_beI32 segment.delCount).bind ?_
  refine (reads_beI64 segment.fieldInfosGen).bind ?_
  refine (reads_beI64 segment.docValuesGen).bind ?_
  refine (reads_beI32 segment.softDelCount).bind ?_
  refine (reads_sciId segment.sciId).bind ?_
  refine (reads_setOfStrings small.fieldInfosFiles).bind ?_
  exact (reads_docValuesUpdateFiles small.docValuesUpdateFiles.1 small.docValuesUpdateFiles.2).bind_silent
    (.pure segment)

def fieldsOf (infos : SegmentInfos) (id : Id) : CommitFields where
  id := id
  luceneVersion := luceneLatestVersion
  indexCreatedVersionMajor := infos.indexCreatedVersionMajor
  version := infos.version
  counter := infos.counter
  segments := infos.segments
  userData := infos.userData

theorem reads_fields {infos : SegmentInfos} (small : infos.Small) (id : Id) {suffix : String}
    (short : (utf8 suffix).length < 256) :
    Reads (readFields suffix) (infos.writeFields id suffix) (infos.fieldsOf id) := by
  obtain ⟨sign, count⟩ := int32_ofNat small.segments.1
  simp only [writeFields, List.append_assoc]
  refine (reads_id id).bind ?_
  refine (reads_byteString short).bind ?_
  refine Reads.silent_bind (.refuse (not_not_intro rfl)) ?_
  refine (reads_vint _).bind ?_
  refine (reads_vint _).bind ?_
  refine (reads_vint _).bind ?_
  refine (reads_vint _).bind ?_
  refine (reads_beI64 _).bind ?_
  refine (reads_vlong _).bind ?_
  refine (reads_beI32 _).bind ?_
  refine Reads.silent_bind (.refuse sign) ?_
  rw [count]
  refine (reads_many fun segment member => reads_segmentCommitInfo (small.segments.2 segment member)).bind ?_
  refine (reads_mapOfStrings small.userData).bind_silent ?_
  rw [Int64.toInt64_toUInt64]
  exact .pure _

end SegmentInfos

end Fields

section Commits

namespace SegmentInfos

def committed (infos : SegmentInfos) (generation : Int) (id : Id) : SegmentInfos :=
  { infos with
    generation, lastGeneration := generation, id := some id, luceneVersion := some luceneLatestVersion }

theorem writeCommit_ok {infos : SegmentInfos} (low : 0 ≤ infos.generation)
    (room : infos.generation < 2 ^ 63 - 1) (id : Id) :
    ∃ (generation : Nat) (fileName : String), infos.generation + 1 = generation ∧
      fileNameFromGeneration segmentsName "" generation = some fileName ∧
      fileName.toList = segmentsName.toList ++ '_' :: (formatBase36 generation).toList ∧
      generationFromSegmentsFileName fileName = .ok generation ∧
      infos.writeCommit id = .ok (infos.committed generation id,
        ⟨fileName, writeFooter (headerBytes segmentsCodec segmentsVersionCurrent ++
          infos.writeFields id (formatBase36 generation))⟩) := by
  obtain ⟨generation, next⟩ := Int.eq_ofNat_of_zero_le (show 0 ≤ infos.generation + 1 by omega)
  obtain ⟨fileName, named, text, back⟩ := @generation_fileName generation (by omega) (by omega)
  have pending : infos.getNextPendingGeneration = .ok (generation : Int) := by
    have other : ¬ infos.generation = -1 := by omega
    rw [getNextPendingGeneration, if_neg other, if_pos (by omega), next]
  refine ⟨generation, fileName, next, named, text, back, ?_⟩
  rw [writeCommit, pending, @writeHeader_ok segmentsCodec _ (by decide)]
  simp only [Except.mapError, bind, Except.bind, named]
  rfl

theorem readCommit_writeCommit {infos : SegmentInfos} (low : 0 ≤ infos.generation)
    (room : infos.generation < 2 ^ 63 - 1) (major : 6 ≤ infos.indexCreatedVersionMajor) (small : infos.Small)
    (id : Id) :
    ∃ commit, infos.writeCommit id = .ok (infos.committed (infos.generation + 1) id, commit) ∧
      readCommit commit.fileName commit.bytes = .ok (infos.committed (infos.generation + 1) id) := by
  obtain ⟨generation, fileName, next, -, -, back, written⟩ := writeCommit_ok low room id
  rw [next]
  refine ⟨_, written, ?_⟩
  rw [readCommit_ok]
  obtain ⟨footer, whole, split⟩ := writeFooter_append (headerBytes segmentsCodec segmentsVersionCurrent ++
    infos.writeFields id (formatBase36 generation))
  have header : checkHeader segmentsCodec segmentsVersion74 segmentsVersionCurrent
      (headerBytes segmentsCodec segmentsVersionCurrent ++ infos.writeFields id (formatBase36 generation)) =
      .ok (segmentsVersionCurrent, infos.writeFields id (formatBase36 generation)) :=
    reads_checkHeader (by decide) (by decide) (by decide) _
  have read := (reads_fields small id (@formatBase36_length generation (by omega) (by omega))).exact
  refine ⟨generation, infos.fieldsOf id, back, ⟨_, _, footer, ⟨split, whole, checkFooter_writeFooter _, _, header⟩,
    read, not_lt.mpr major⟩, rfl⟩

end SegmentInfos

end Commits

section Directory

/- What is done with infos between and for commits; `edit` stands for the fields that are public. -/
inductive SegmentInfosOp where
  | edit (userData : SortedMap String String) (segments : List SegmentCommitInfo) (counter version : Int64)
  | setNextWriteGeneration (generation : Int)
  | writeCommit (id : Id)

def commitRun : SegmentInfos → List SegmentInfosOp → List (Int × SegmentInfosCommit)
  | _, [] => []
  | infos, .edit userData segments counter version :: ops =>
    commitRun { infos with userData, segments, counter, version } ops
  | infos, .setNextWriteGeneration generation :: ops =>
    match infos.setNextWriteGeneration generation with
    | .ok infos => commitRun infos ops
    | .error _ => commitRun infos ops
  | infos, .writeCommit id :: ops =>
    match infos.writeCommit id with
    | .ok (infos, commit) => (infos.generation, commit) :: commitRun infos ops
    | .error _ => []

structure NameOf (generation : Int) (fileName : String) : Prop where
  positive : 0 < generation
  segments : segmentsName.toList.isPrefixOf fileName.toList = true
  current : ¬ oldSegmentsGen.toList.isPrefixOf fileName.toList = true
  back : generationFromSegmentsFileName fileName = .ok generation

theorem nameOf_text {generation : Int} {fileName : String} {rest : List Char} (positive : 0 < generation)
    (text : fileName.toList = segmentsName.toList ++ '_' :: rest)
    (back : generationFromSegmentsFileName fileName = .ok generation) : NameOf generation fileName := by
  refine ⟨positive, ?_, ?_, back⟩
  · rw [text]
    exact List.isPrefixOf_iff_prefix.mpr (List.prefix_append _ _)
  · rw [text, List.isPrefixOf_iff_prefix]
    have gen : oldSegmentsGen.toList = segmentsName.toList ++ '.' :: ['g', 'e', 'n'] := by decide
    rw [gen, List.prefix_append_right_inj, List.cons_prefix_cons]
    exact fun both => absurd both.1 (by decide)

theorem commitRun_ascending {infos : SegmentInfos} (low : 0 ≤ infos.generation) (ops : List SegmentInfosOp) :
    (commitRun infos ops).Pairwise (fun earlier later => earlier.1 < later.1) ∧
      ∀ written ∈ commitRun infos ops, infos.generation < written.1 ∧ NameOf written.1 written.2.fileName := by
  induction ops generalizing infos with
  | nil => exact ⟨.nil, by simp [commitRun]⟩
  | cons op ops ih =>
    cases op with
    | edit userData segments counter version => exact @ih { infos with userData, segments, counter, version } low
    | setNextWriteGeneration generation =>
      rw [commitRun]
      unfold SegmentInfos.setNextWriteGeneration
      split
      · rename_i next same
        split at same
        · cases same
        · rename_i higher
          cases same
          obtain ⟨ascending, each⟩ := @ih { infos with generation } (by simp only; omega)
          exact ⟨ascending, fun written member => ⟨by have := (each written member).1; simp only at this; omega,
            (each written member).2⟩⟩
      · exact ih low
    | writeCommit id =>
      by_cases room : infos.generation < 2 ^ 63 - 1
      · obtain ⟨generation, fileName, next, -, text, back, written⟩ := SegmentInfos.writeCommit_ok low room id
        have here := nameOf_text (show 0 < (generation : Int) by omega) text back
        obtain ⟨ascending, each⟩ := @ih (infos.committed generation id) (Int.natCast_nonneg generation)
        rw [commitRun, written]
        refine ⟨List.pairwise_cons.mpr ⟨fun later member => (each later member).1, ascending⟩, ?_⟩
        refine List.forall_mem_cons.mpr ⟨⟨?_, here⟩, fun later member => ⟨?_, (each later member).2⟩⟩
        · change infos.generation < generation
          omega
        · have after : (generation : Int) < later.1 := (each later member).1
          omega
      · have ends : infos.writeCommit id = .error .overflow := by
          have other : ¬ infos.generation = -1 := by omega
          rw [SegmentInfos.writeCommit, SegmentInfos.getNextPendingGeneration, if_neg other, if_neg (by omega)]
          rfl
        rw [commitRun, ends]
        exact ⟨.nil, by simp⟩

theorem lastCommitLoop_ok {files : List String} (named : ∀ file ∈ files, ∃ generation, NameOf generation file)
    (start : Int) : ∃ result, lastCommitLoop files start = .ok result ∧ start ≤ result ∧
      (∀ file ∈ files, ∀ generation, NameOf generation file → generation ≤ result) ∧
      (result = start ∨ ∃ file ∈ files, NameOf result file) := by
  induction files generalizing start with
  | nil => exact ⟨start, rfl, Int.le_refl _, by simp, .inl rfl⟩
  | cons file files ih =>
    obtain ⟨⟨generation, name⟩, later⟩ := List.forall_mem_cons.mp named
    obtain ⟨result, loop, above, each, among⟩ := ih later (if generation > start then generation else start)
    refine ⟨result, ?_, ?_, List.forall_mem_cons.mpr ⟨?_, each⟩, ?_⟩
    · rw [lastCommitLoop, if_pos ⟨name.segments, name.current⟩, name.back]
      exact loop
    · refine le_trans ?_ above
      split <;> omega
    · intro other name'
      have same : generation = other := Except.ok.inj (name.back.symm.trans name'.back)
      rw [← same]
      refine le_trans ?_ above
      split <;> omega
    · rcases among with same | ⟨file', member, name'⟩
      · split at same
        · exact .inr ⟨file, List.mem_cons_self, same ▸ name⟩
        · exact .inl same
      · exact .inr ⟨file', List.mem_cons_of_mem _ member, name'⟩

theorem getLastCommitGeneration_run {infos : SegmentInfos} (low : 0 ≤ infos.generation)
    {ops : List SegmentInfosOp} {last : Int × SegmentInfosCommit}
    (newest : (commitRun infos ops).getLast? = some last) {files : List String}
    (written : ∀ file ∈ files, ∃ commit ∈ commitRun infos ops, file = commit.2.fileName)
    (there : last.2.fileName ∈ files) : getLastCommitGeneration files = .ok last.1 := by
  obtain ⟨ascending, each⟩ := commitRun_ascending low ops
  obtain ⟨front, split⟩ := List.getLast?_eq_some_iff.mp newest
  have named : ∀ file ∈ files, ∃ generation, NameOf generation file := by
    intro file member
    obtain ⟨commit, inside, rfl⟩ := written file member
    exact ⟨_, (each commit inside).2⟩
  have member : last ∈ commitRun infos ops := by
    rw [split]
    exact List.mem_append_right _ (List.mem_singleton.mpr rfl)
  have highest : ∀ commit ∈ commitRun infos ops, commit.1 ≤ last.1 := by
    intro commit inside
    rw [split] at inside ascending
    rcases List.mem_append.mp inside with earlier | same
    · exact Int.le_of_lt ((List.pairwise_append.mp ascending).2.2 commit earlier last (List.mem_singleton.mpr rfl))
    · rw [List.mem_singleton.mp same]
  obtain ⟨result, loop, -, above, among⟩ := lastCommitLoop_ok named (-1)
  have lower := above _ there last.1 (each last member).2
  have positive := (each last member).2.positive
  rcases among with same | ⟨file, inside, name⟩
  · omega
  · obtain ⟨commit, found, rfl⟩ := written file inside
    have same : result = commit.1 := Except.ok.inj (name.back.symm.trans (each commit found).2.back)
    have upper := highest commit found
    rw [getLastCommitGeneration, loop]
    congr 1
    omega

/- Writing changes the generation, the id and the version alone, a commit is read as writing left the
infos, and the newest of the commits is found. -/
theorem segment_commits {infos : SegmentInfos} (low : 0 ≤ infos.generation)
    (room : infos.generation < 2 ^ 63 - 1) (major : 6 ≤ infos.indexCreatedVersionMajor) (small : infos.Small) :
    (∀ id, ∃ commit, infos.writeCommit id = .ok (infos.committed (infos.generation + 1) id, commit) ∧
      SegmentInfos.readCommit commit.fileName commit.bytes =
        .ok (infos.committed (infos.generation + 1) id)) ∧
    ∀ ops last files, (commitRun infos ops).getLast? = some last →
      (∀ file ∈ files, ∃ commit ∈ commitRun infos ops, file = commit.2.fileName) →
      last.2.fileName ∈ files → getLastCommitGeneration files = .ok last.1 :=
  ⟨SegmentInfos.readCommit_writeCommit low room major small,
    fun _ _ _ newest written there => getLastCommitGeneration_run low newest written there⟩

def sampleInfos : SegmentInfos where
  indexCreatedVersionMajor := 11
  generation := 35
  lastGeneration := 0
  id := none
  luceneVersion := none
  userData := .singleton "source" "été"
  segments := [{
    metadata := { name := "_0", id := ⟨List.replicate 16 7, rfl⟩, codec := "Lucene104" }
    delGen := -1, delCount := 0, fieldInfosGen := 1, docValuesGen := -1, softDelCount := 0
    sciId := some ⟨List.replicate 16 9, rfl⟩
    fieldInfosFiles := .singleton "_0_1.fnm" ()
    docValuesUpdateFiles := .singleton (-3) (.singleton "_0_1.dvd" ()) }]
  counter := -1
  version := -7

theorem segment_commits_sample :
    (∀ id, ∃ commit, sampleInfos.writeCommit id = .ok (sampleInfos.committed 36 id, commit) ∧
      SegmentInfos.readCommit commit.fileName commit.bytes = .ok (sampleInfos.committed 36 id)) ∧
    ∀ ops last files, (commitRun sampleInfos ops).getLast? = some last →
      (∀ file ∈ files, ∃ commit ∈ commitRun sampleInfos ops, file = commit.2.fileName) →
      last.2.fileName ∈ files → getLastCommitGeneration files = .ok last.1 := by
  have small : sampleInfos.Small := by
    refine ⟨⟨by decide, ?_⟩, by decide⟩
    intro segment member
    obtain rfl := List.mem_singleton.mp member
    exact ⟨by decide, by decide, by decide, by decide⟩
  exact segment_commits (by decide) (by decide) (by decide) small

end Directory

end Surch.Index
