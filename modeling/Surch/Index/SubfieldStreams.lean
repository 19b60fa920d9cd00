import Surch.Index.SubfieldMerges

/-! The streamed merge of one sub-field path, read back from its file. Its appends leave one
contiguous column, but a read stops at `u32::MAX` bytes of codes. -/
namespace Surch.Index
open Surch.Lib Surch.Postings SubfieldColumn

/- The codes of a source's dictionary and the ones that stand for the same values in `dict`. -/
def Remapped (dict : List String) (source : SubfieldSource) (remap : Option (List Nat)) : Prop :=
  match source.column, remap with
  | none, none => True
  | some given, some codes => ∃ own, given.dictOnly source.store = some own ∧
      List.Forall₂ (fun value code => dict[code]? = some value) own codes
  | _, _ => False

theorem unionDicts_extends {run : List SubfieldSource} {column final : SubfieldColumn}
    {remaps : List (Option (List Nat))} (union : unionDicts column run = some (remaps, final)) :
    column.dict <+: final.dict := by
  induction run generalizing column remaps with
  | nil =>
    cases union
    exact List.prefix_refl _
  | cons source run ih =>
    simp only [unionDicts] at union
    cases given : source.column with
    | none =>
      simp only [given, Option.bind_eq_bind, Option.bind_eq_some_iff] at union
      obtain ⟨⟨rest, last⟩, union', same⟩ := union
      cases same
      exact ih union'
    | some given' =>
      simp only [given, Option.bind_eq_bind, Option.bind_eq_some_iff] at union
      obtain ⟨own, -, ⟨rest, last⟩, union', same⟩ := union
      cases same
      exact (internAll_extends column own).trans (ih union')

theorem unionDicts_spec {run : List SubfieldSource} {column final : SubfieldColumn}
    {remaps : List (Option (List Nat))} (indexes : Indexes column.internIndex column.dict)
    (union : unionDicts column run = some (remaps, final))
    (small : final.dict.length < 2 ^ 32) : List.Forall₂ (Remapped final.dict) run remaps := by
  induction run generalizing column remaps with
  | nil =>
    cases union
    exact .nil
  | cons source run ih =>
    simp only [unionDicts] at union
    cases given : source.column with
    | none =>
      simp only [given, Option.bind_eq_bind, Option.bind_eq_some_iff] at union
      obtain ⟨⟨rest, last⟩, union', same⟩ := union
      cases same
      exact .cons (by simp [Remapped, given]) (ih indexes union')
    | some given' =>
      simp only [given, Option.bind_eq_bind, Option.bind_eq_some_iff] at union
      obtain ⟨own, read, ⟨rest, last⟩, union', same⟩ := union
      cases same
      have extended := unionDicts_extends union'
      obtain ⟨indexes', places⟩ :=
        internAll_spec indexes ((extended.length_le).trans_lt small)
      refine .cons ?_ (ih indexes' union')
      simp only [Remapped, given]
      refine ⟨own, read, ?_⟩
      exact places.imp fun value code found => getElem?_of_append extended found

theorem materialized_get {given : SubfieldColumn} {store : Option SubfieldSegment}
    {dict : List String} {codes : List Nat} (values : given.dictOnly store = some dict)
    (numbers : given.codesOnly store = some codes) (docId : Nat) :
    (given.materialized store).get docId = valueOf dict (codes.getD docId absent) := by
  cases spilled : given.disk with
  | none =>
    simp only [dictOnly, codesOnly, materialized, spilled, Option.some_inj] at values numbers ⊢
    rw [get_eq, values, numbers]
  | some disk =>
    cases store with
    | none => simp [dictOnly, spilled] at values
    | some store =>
      simp only [dictOnly, codesOnly, spilled, Option.bind_some] at values numbers
      have whole : given.materialized (some store) = ⟨dict, codes, .empty, none⟩ := by
        simp [materialized, spilled, readSpilled, values, numbers]
      rw [whole, get_eq]

section Remap

variable {dict own : List String} {remap : List Nat}
  (places : List.Forall₂ (fun value code => dict[code]? = some value) own remap)
include places

theorem remap_value (code : Nat) : (remap[code]?).bind (fun place => dict[place]?) = own[code]? := by
  induction places generalizing code with
  | nil => simp
  | cons here _ ih =>
    cases code with
    | zero => simpa using here
    | succ code => simpa using ih code

theorem remap_inside {place : Nat} (member : place ∈ remap) : place < dict.length := by
  induction places with
  | nil => simp at member
  | cons here _ ih =>
    rcases List.mem_cons.mp member with rfl | later
    · exact (List.getElem?_eq_some_iff.mp here).1
    · exact ih later

def remapCode (remap : List Nat) (code : Nat) : Nat :=
  if code = absent then absent else remap.getD code absent

theorem remapCode_lt (small : dict.length < 2 ^ 32 - 1) (code : Nat) :
    remapCode remap code < 2 ^ 32 := by
  have filler : absent < 2 ^ 32 := by decide
  unfold remapCode
  split
  · exact filler
  · rcases getD_mem absent remap code with missing | member
    · rwa [missing]
    · have inside := remap_inside places member
      omega

theorem valueOf_remapCode (small : dict.length < 2 ^ 32 - 1) (code : Nat) :
    valueOf dict (remapCode remap code) = valueOf own code := by
  by_cases missing : code = absent
  · simp [remapCode, missing]
  · have value := remap_value places code
    cases found : remap[code]? with
    | none =>
      simp only [found, Option.bind_none] at value
      simp [remapCode, missing, List.getD_eq_getElem?_getD, found, valueOf, ← value]
    | some place =>
      simp only [found, Option.bind_some] at value
      have inside := remap_inside places (List.mem_of_getElem? found)
      have present : place ≠ absent := by
        simp only [absent, maxU32]
        omega
      simp [remapCode, missing, List.getD_eq_getElem?_getD, found, valueOf, present, value]

end Remap

structure Translates (dict : List String) (count : Nat) (values : Nat → Option String)
    (codes : List Nat) : Prop where
  length : codes.length = count
  fits : ∀ code ∈ codes, code < 2 ^ 32
  answers : ∀ docId, valueOf dict (codes.getD docId absent) =
    if docId < count then values docId else none

theorem Translates.absent (dict : List String) {count : Nat} {values : Nat → Option String}
    (missing : ∀ docId < count, values docId = none) :
    Translates dict count values (List.replicate count SubfieldColumn.absent) where
  length := List.length_replicate
  fits code member := by
    rw [List.eq_of_mem_replicate member]
    decide
  answers docId := by
    have filler : (List.replicate count SubfieldColumn.absent).getD docId SubfieldColumn.absent =
        SubfieldColumn.absent := by
      rw [List.getD_eq_getElem?_getD, List.getElem?_replicate]
      split <;> rfl
    rw [filler, valueOf_absent]
    split
    · rename_i inside
      exact (missing docId inside).symm
    · rfl

theorem Translates.append {dict : List String} {count more : Nat}
    {values rest all : Nat → Option String} {codes chunk : List Nat}
    (first : Translates dict count values chunk) (second : Translates dict more rest codes)
    (own : ∀ docId < count, all docId = values docId)
    (later : ∀ docId, all (count + docId) = rest docId) :
    Translates dict (count + more) all (chunk ++ codes) where
  length := by rw [List.length_append, first.length, second.length]
  fits := by
    rw [List.forall_mem_append]
    exact ⟨first.fits, second.fits⟩
  answers docId := by
    by_cases inside : docId < count
    · have here := first.answers docId
      rw [if_pos inside, ← own docId inside] at here
      have within : docId < count + more := by omega
      rw [if_pos within, ← here]
      simp [List.getD_eq_getElem?_getD, List.getElem?_append, first.length, inside]
    · obtain ⟨offset, rfl⟩ := Nat.exists_eq_add_of_le (not_lt.mp inside)
      have there := second.answers offset
      rw [← later offset] at there
      have within : count + offset < count + more ↔ offset < more := by omega
      simp only [within, ← there]
      simp [List.getD_eq_getElem?_getD, List.getElem?_append, first.length]

theorem translatedCodes_spec {dict : List String} {source : SubfieldSource}
    {remap : Option (List Nat)} {codes : List Nat} (remapped : Remapped dict source remap)
    (small : dict.length < 2 ^ 32 - 1) (translated : translatedCodes source remap = some codes) :
    Translates dict source.docCount source.value codes := by
  cases given : source.column with
  | none =>
    have codes_eq : codes = List.replicate source.docCount SubfieldColumn.absent := by
      cases remap <;> simp [translatedCodes, given] at translated <;> exact translated.symm
    rw [codes_eq]
    exact Translates.absent dict fun docId _ => by simp [SubfieldSource.value, given]
  | some column =>
    cases remap with
    | none => simp [Remapped, given] at remapped
    | some remap =>
      simp only [Remapped, given] at remapped
      obtain ⟨own, values, places⟩ := remapped
      simp only [translatedCodes, given, Option.bind_eq_bind, Option.bind_eq_some_iff] at translated
      obtain ⟨numbers, read, same⟩ := translated
      cases same
      have answers : ∀ docId, source.value docId =
          valueOf own (numbers.getD docId SubfieldColumn.absent) := by
        intro docId
        simp only [SubfieldSource.value, given, Option.bind_some]
        exact materialized_get values read docId
      constructor
      · simp [translateSourceCodes]
      · intro code member
        obtain ⟨docId, -, rfl⟩ := List.mem_map.mp member
        exact remapCode_lt places small _
      · intro docId
        by_cases inside : docId < source.docCount
        · rw [if_pos inside, answers, ← valueOf_remapCode places small]
          simp [translateSourceCodes, List.getD_eq_getElem?_getD, inside, remapCode]
        · have past : (translateSourceCodes numbers source.docCount remap).length ≤ docId := by
            simpa [translateSourceCodes] using inside
          rw [if_neg inside, getD_of_length_le past, valueOf_absent]

structure EndsWith (store : SubfieldSegment) (base : Nat) (bytes : List UInt8) : Prop where
  holds : store.Holds base bytes
  last : store.nextOffset = base + bytes.length

theorem EndsWith.append {store : SubfieldSegment} {base offset : Nat} {bytes more : List UInt8}
    (ends : EndsWith store base bytes) (accepted : (store.append more).1 = some offset) :
    EndsWith (store.append more).2 base (bytes ++ more) ∧ offset = base + bytes.length := by
  obtain ⟨holds, last⟩ := ends.holds.extend ends.last accepted
  exact ⟨⟨holds, last⟩, (PostingsSegment.append_holds accepted).1.trans ends.last⟩

/-- The codes pass appends one contiguous table, which stands for the values of the run. -/
theorem appendCodes_spec {dict : List String} (small : dict.length < 2 ^ 32 - 1)
    {run : List SubfieldSource} {remaps : List (Option (List Nat))}
    (remapped : List.Forall₂ (Remapped dict) run remaps) {store : SubfieldSegment} {base : Nat}
    {bytes : List UInt8} (ends : EndsWith store base bytes) {first last : Option Nat}
    {before codesLen : Nat}
    (appended : (appendCodes store first before (run.zip remaps)).1 = some (last, codesLen)) :
    ∃ codes, Translates dict (totalDocs run) (ownValue run) codes ∧
      codesLen = before + codes.length ∧
      (last = first ∨ first = none ∧ last = some (base + bytes.length)) ∧
      EndsWith (appendCodes store first before (run.zip remaps)).2 base
        (bytes ++ encodeU32s codes) ∧
      (appendCodes store first before (run.zip remaps)).2.device = store.device := by
  induction remapped generalizing store bytes first before with
  | nil =>
    obtain ⟨rfl, rfl⟩ : first = last ∧ before = codesLen := by simpa [appendCodes] using appended
    refine ⟨[], ⟨rfl, by simp, by simp⟩, rfl, .inl rfl, ?_, rfl⟩
    simpa [appendCodes, encodeU32s] using ends
  | @cons source remap run remaps own _ ih =>
    rw [List.zip_cons_cons] at appended ⊢
    cases translated : translatedCodes source remap with
    | none => simp [appendCodes, translated] at appended
    | some chunk =>
      have stands := translatedCodes_spec own small translated
      by_cases large : chunk.length > maxU32 / 4
      · simp [appendCodes, translated, appendCodesChunk, large] at appended
      have chunk_append : appendCodesChunk chunk store = store.append (encodeU32s chunk) :=
        if_neg large
      have device := PostingsSegment.append_device store (encodeU32s chunk)
      rcases result : store.append (encodeU32s chunk) with ⟨_ | offset, next⟩
      · simp [appendCodes, translated, chunk_append, result] at appended
      · have accepted : (store.append (encodeU32s chunk)).1 = some offset := by rw [result]
        obtain ⟨ends', place⟩ := ends.append accepted
        rw [result] at ends' device
        have unfolded : appendCodes store first before ((source, remap) :: run.zip remaps) =
            appendCodes next (some (first.getD offset)) (before + chunk.length)
              (run.zip remaps) := by
          simp [appendCodes, translated, chunk_append, result]
        rw [unfolded] at appended ⊢
        obtain ⟨codes, stands', length, start, ends'', device'⟩ := ih ends' appended
        refine ⟨chunk ++ codes, ?_, ?_, ?_, ?_, ?_⟩
        · exact stands.append stands' (fun docId inside => if_pos inside)
            (fun docId => by rw [ownValue, if_neg (by omega), Nat.add_sub_cancel_left])
        · rw [length, List.length_append, Nat.add_assoc]
        · have found : last = some (first.getD offset) := by simpa using start
          cases first with
          | none => exact .inr ⟨rfl, by rw [found, place]; rfl⟩
          | some given => exact .inl found
        · rwa [encodeU32s_append, ← List.append_assoc]
        · exact device'.trans device

theorem writeSubfieldDictHeader_spec {dict : List String} {store : SubfieldSegment}
    {offsetsBase bytesBase bytesLen : Nat}
    (written : (writeSubfieldDictHeader dict store).1 = some (offsetsBase, bytesBase, bytesLen)) :
    dictTotalBytes dict ≤ maxU32 ∧ dict.length < maxU32 / 4 ∧
      EndsWith (writeSubfieldDictHeader dict store).2 offsetsBase
        (encodeU32s (dictOffsets dict) ++ dictBytes dict) ∧
      bytesBase = offsetsBase + 4 * (dict.length + 1) ∧ bytesLen = dictTotalBytes dict ∧
      (writeSubfieldDictHeader dict store).2.device = store.device := by
  by_cases large : dictTotalBytes dict > maxU32 ∨ dict.length ≥ maxU32 / 4
  · simp [writeSubfieldDictHeader, large] at written
  have device := PostingsSegment.append_device store
    (encodeU32s (dictOffsets dict) ++ dictBytes dict)
  simp only [writeSubfieldDictHeader, if_neg large] at written ⊢
  rcases result : store.append (encodeU32s (dictOffsets dict) ++ dictBytes dict) with
    ⟨_ | base, next⟩
  · simp [result] at written
  · have accepted : (store.append (encodeU32s (dictOffsets dict) ++ dictBytes dict)).1 =
        some base := by rw [result]
    obtain ⟨start, holds, last, -⟩ := PostingsSegment.append_holds accepted
    rw [← start] at last
    simp only [result, Option.some_inj, Prod.mk.injEq] at written holds last device ⊢
    obtain ⟨rfl, rfl, rfl⟩ := written
    rw [not_or, not_lt, not_le] at large
    exact ⟨large.1, large.2, ⟨holds, last⟩, by rw [offsets_length], dictBytes_length dict, device⟩

/-- A column the streamed merge produces lies in its file, with the values of the run. -/
theorem mergeSubfieldColumnStreamed_spec {run : List SubfieldSource} {store : SubfieldSegment}
    {column : SubfieldColumn}
    (produced : (mergeSubfieldColumnStreamed run store).1 = some column) :
    ∃ dict codes disk, column.disk = some disk ∧ Describes disk dict codes.length ∧
      (mergeSubfieldColumnStreamed run store).2.Holds disk.dictOffsetsBase
        (columnBytes dict codes) ∧
      (mergeSubfieldColumnStreamed run store).2.device = store.device ∧
      dictTotalBytes dict ≤ maxU32 ∧ dict.length < maxU32 / 4 ∧
      Translates dict (totalDocs run) (ownValue run) codes := by
  rcases union : unionDicts .default run with _ | ⟨remaps, final⟩
  · simp [mergeSubfieldColumnStreamed, union] at produced
  by_cases empty : final.dict = []
  · simp [mergeSubfieldColumnStreamed, union, empty] at produced
  rcases header : writeSubfieldDictHeader final.dict store with
    ⟨_ | ⟨offsetsBase, bytesBase, bytesLen⟩, written⟩
  · simp [mergeSubfieldColumnStreamed, union, empty, header] at produced
  have headed : (writeSubfieldDictHeader final.dict store).1 =
      some (offsetsBase, bytesBase, bytesLen) := by rw [header]
  obtain ⟨small, few, ends, bytesBase_eq, bytesLen_eq, device⟩ := writeSubfieldDictHeader_spec headed
  rw [header] at ends device
  rcases codes_pass : appendCodes written none 0 (run.zip remaps) with
    ⟨_ | ⟨codesBase, codesLen⟩, next⟩
  · simp [mergeSubfieldColumnStreamed, union, empty, header, codes_pass] at produced
  have appended : (appendCodes written none 0 (run.zip remaps)).1 = some (codesBase, codesLen) := by
    rw [codes_pass]
  have limit : final.dict.length < 2 ^ 32 - 1 := by
    simp only [maxU32] at few
    omega
  have remapped := unionDicts_spec Indexes.empty union (by omega)
  obtain ⟨codes, stands, length, start, ends', device'⟩ :=
    appendCodes_spec limit remapped ends appended
  rw [codes_pass] at ends' device'
  by_cases many : codesLen ≥ 2 ^ 32
  · simp only [mergeSubfieldColumnStreamed, union, empty, header, codes_pass, if_pos many,
      if_false, reduceCtorEq] at produced
  simp only [mergeSubfieldColumnStreamed, union, empty, header, codes_pass, many, if_false,
    Option.some_inj] at produced ⊢
  refine ⟨final.dict, codes, _, congrArg SubfieldColumn.disk produced.symm, ?_, ends'.holds,
    device'.trans device, small, few, stands⟩
  have codesBase_eq : codesBase.getD (bytesBase + bytesLen) = bytesBase + bytesLen := by
    rcases start with rfl | ⟨-, rfl⟩
    · rfl
    · simp only [Option.getD_some, List.length_append, offsets_length, dictBytes_length]
      omega
  exact ⟨rfl, bytesBase_eq, bytesLen_eq, by rw [codesBase_eq, bytesLen_eq], by simpa using length⟩

section Produced

theorem translatedCodes_length {source : SubfieldSource} {remap : Option (List Nat)}
    {codes : List Nat} (translated : translatedCodes source remap = some codes) :
    codes.length = source.docCount := by
  unfold translatedCodes at translated
  split at translated
  · simp only [Option.bind_eq_bind, Option.bind_eq_some_iff] at translated
    obtain ⟨numbers, -, same⟩ := translated
    cases same
    simp [translateSourceCodes]
  · cases translated
    exact List.length_replicate

theorem appendCodes_produces {store : SubfieldSegment}
    (reliable : ∀ n, store.device.failsAfter n = none)
    {pairs : List (SubfieldSource × Option (List Nat))}
    (readable : ∀ pair ∈ pairs, ∃ codes, translatedCodes pair.1 pair.2 = some codes)
    (chunks_fit : ∀ pair ∈ pairs, pair.1.docCount ≤ maxU32 / 4)
    (room : store.nextOffset + 4 * totalDocs (pairs.map Prod.fst) < PostingsSegment.fileSizeLimit)
    (first : Option Nat) (before : Nat) :
    ∃ last, (appendCodes store first before pairs).1 =
      some (last, before + totalDocs (pairs.map Prod.fst)) := by
  induction pairs generalizing store first before with
  | nil => exact ⟨first, rfl⟩
  | cons pair pairs ih =>
    obtain ⟨source, remap⟩ := pair
    obtain ⟨⟨codes, translated⟩, readable'⟩ := List.forall_mem_cons.mp readable
    obtain ⟨small, chunks_fit'⟩ := List.forall_mem_cons.mp chunks_fit
    have length := translatedCodes_length translated
    simp only [List.map_cons, totalDocs_cons] at room translated length small ⊢
    have size : (encodeU32s codes).length = 4 * source.docCount := by
      rw [encodeU32s_length, length]
    have accepted := @PostingsSegment.append_accepted store (encodeU32s codes) (by omega)
      (reliable _)
    obtain ⟨-, -, last, -⟩ := PostingsSegment.append_holds accepted
    have device := PostingsSegment.append_device store (encodeU32s codes)
    have chunk_append : appendCodesChunk codes store = store.append (encodeU32s codes) :=
      if_neg (by omega)
    obtain ⟨final, rest⟩ := @ih (store.append (encodeU32s codes)).2 (by rwa [device]) readable'
      chunks_fit' (by omega) (some (first.getD store.nextOffset)) (before + source.docCount)
    refine ⟨final, ?_⟩
    rw [← Nat.add_assoc, ← rest]
    rcases result : store.append (encodeU32s codes) with ⟨answer, next⟩
    obtain rfl : answer = some store.nextOffset := by simpa [result] using accepted
    simp [appendCodes, translated, chunk_append, result, length]

/-- On a device that does not fail, readable sources with a dictionary are streamed. -/
theorem mergeSubfieldColumnStreamed_produces {run : List SubfieldSource}
    {store : SubfieldSegment} (reliable : ∀ n, store.device.failsAfter n = none)
    {remaps : List (Option (List Nat))} {final : SubfieldColumn}
    (union : unionDicts .default run = some (remaps, final)) (nonempty : final.dict ≠ [])
    (small : dictTotalBytes final.dict ≤ maxU32) (few : final.dict.length < maxU32 / 4)
    (readable : ∀ pair ∈ run.zip remaps, ∃ codes, translatedCodes pair.1 pair.2 = some codes)
    (chunks_fit : ∀ source ∈ run, source.docCount ≤ maxU32 / 4) (fits : totalDocs run < 2 ^ 32)
    (room : store.nextOffset + (columnBytes final.dict []).length + 4 * totalDocs run <
      PostingsSegment.fileSizeLimit) :
    ∃ column, (mergeSubfieldColumnStreamed run store).1 = some column := by
  have header_bytes : columnBytes final.dict [] =
      encodeU32s (dictOffsets final.dict) ++ dictBytes final.dict := by
    simp [columnBytes, encodeU32s]
  rw [header_bytes] at room
  have limit : final.dict.length < 2 ^ 32 := by
    simp only [maxU32] at few
    omega
  have aligned := (unionDicts_spec Indexes.empty union limit).length_eq
  have sources : (run.zip remaps).map Prod.fst = run := List.map_fst_zip aligned.le
  have accepted := @PostingsSegment.append_accepted store
    (encodeU32s (dictOffsets final.dict) ++ dictBytes final.dict) (by omega) (reliable _)
  obtain ⟨-, -, last, -⟩ := PostingsSegment.append_holds accepted
  have device := PostingsSegment.append_device store
    (encodeU32s (dictOffsets final.dict) ++ dictBytes final.dict)
  rcases result : store.append (encodeU32s (dictOffsets final.dict) ++ dictBytes final.dict) with
    ⟨answer, next⟩
  obtain rfl : answer = some store.nextOffset := by simpa [result] using accepted
  rw [result] at last device
  have header : writeSubfieldDictHeader final.dict store = (some (store.nextOffset,
      store.nextOffset + (encodeU32s (dictOffsets final.dict)).length,
        (dictBytes final.dict).length), next) := by
    rw [writeSubfieldDictHeader, if_neg (by omega)]
    simp [result]
  obtain ⟨codesBase, appended⟩ := @appendCodes_produces next (by rwa [device]) (run.zip remaps)
    readable (fun pair member => chunks_fit pair.1 (List.of_mem_zip member).1)
    (by rw [sources, last]; exact room) none 0
  rw [sources, Nat.zero_add] at appended
  rcases pass : appendCodes next none 0 (run.zip remaps) with ⟨answer, written⟩
  obtain rfl : answer = some (codesBase, totalDocs run) := by simpa [pass] using appended
  have within : ¬ totalDocs run ≥ 2 ^ 32 := by omega
  simp only [mergeSubfieldColumnStreamed, union, nonempty, if_false, header, pass, if_neg within]
  exact ⟨_, rfl⟩

end Produced

/-- Read back, a streamed column has the values of the run as far as one read of codes reaches. -/
theorem streamed_get {run : List SubfieldSource} {store later : SubfieldSegment}
    {column : SubfieldColumn}
    (produced : (mergeSubfieldColumnStreamed run store).1 = some column)
    (reached : (mergeSubfieldColumnStreamed run store).2.Reaches later)
    (readable : ∀ offset length, store.device.reads offset length = true) (docId : Nat) :
    (column.materialized (some later)).get docId =
      if docId < codesRead then ownValue run docId else none := by
  obtain ⟨dict, codes, disk, spilled, described, holds, device, small, few, stands⟩ :=
    mergeSubfieldColumnStreamed_spec produced
  have readable' : ∀ offset length, later.device.reads offset length = true := by
    rw [reached.device, device]
    exact readable
  have read := materialized_eq spilled described (holds.reaches reached) readable' small few
    stands.fits
  rw [read, get_eq]
  by_cases inside : docId < codesRead
  · have own := stands.answers docId
    have same : (codes.take codesRead).getD docId absent = codes.getD docId absent := by
      simp [List.getD_eq_getElem?_getD, inside]
    rw [if_pos inside, same, own]
    split
    · rfl
    · rename_i past
      rw [ownValue_past (not_lt.mp past)]
  · have past : (codes.take codesRead).length ≤ docId := by
      rw [List.length_take]
      omega
    rw [if_neg inside, getD_of_length_le past, valueOf_absent]

/- The two merges answer and are traversed alike, each with what the owning segment answers. -/
structure MergesAgree (run : List SubfieldSource) (streamed resident : SubfieldColumn) : Prop where
  get : ∀ docId, streamed.get docId = resident.get docId
  iter : streamed.iter = resident.iter
  streamed_own : ∀ docId, streamed.get docId = ownValue run docId
  resident_own : ∀ docId, resident.get docId = ownValue run docId

/-- The merges agree exactly when no document beyond the codes one read reaches has a value. -/
theorem merges_agree_iff {run : List SubfieldSource} (fits : totalDocs run < 2 ^ 32)
    {store later : SubfieldSegment} {column : SubfieldColumn}
    (produced : (mergeSubfieldColumnStreamed run store).1 = some column)
    (reached : (mergeSubfieldColumnStreamed run store).2.Reaches later)
    (readable : ∀ offset length, store.device.reads offset length = true) :
    MergesAgree run (column.materialized (some later)) (mergeSubfieldColumnResident run) ↔
      ∀ docId, 2 ^ 30 - 1 ≤ docId → ownValue run docId = none := by
  have limit : codesRead = 2 ^ 30 - 1 := by decide
  have streamed := streamed_get produced reached readable
  have resident := mergeSubfieldColumnResident_get fits
  constructor
  · intro agree docId far
    have own := agree.streamed_own docId
    rw [streamed, if_neg (by omega)] at own
    exact own.symm
  · intro near
    have own : ∀ docId, (column.materialized (some later)).get docId = ownValue run docId := by
      intro docId
      rw [streamed]
      split
      · rfl
      · rename_i far
        exact (near docId (by omega)).symm
    have same : ∀ docId, (column.materialized (some later)).get docId =
        (mergeSubfieldColumnResident run).get docId := by
      intro docId
      rw [own, resident]
    exact ⟨same, iter_congr same, own, resident⟩

section FarValue

/- One segment without the path, and one whose only document has a value. -/
def farRun (count : Nat) : List SubfieldSource :=
  [⟨none, none, count⟩, ⟨some (SubfieldColumn.default.set 0 "x"), none, 1⟩]

theorem totalDocs_farRun (count : Nat) : totalDocs (farRun count) = count + 1 := rfl

theorem ownValue_farRun (count : Nat) : ownValue (farRun count) count = some "x" := by
  have present : SubfieldSource.value ⟨some (SubfieldColumn.default.set 0 "x"), none, 1⟩ 0 =
      some "x" := by decide +kernel
  simp [farRun, ownValue, present]

theorem farRun_produced {count : Nat} (small : count ≤ 2 ^ 30 - 1) :
    ∃ column, (mergeSubfieldColumnStreamed (farRun count) emptySegment).1 = some column := by
  have interned : (SubfieldColumn.default.internAll ["x"]).1 = [0] ∧
      (SubfieldColumn.default.internAll ["x"]).2.dict = ["x"] := by decide +kernel
  have own : (SubfieldColumn.default.set 0 "x").dictOnly none = some ["x"] := by decide +kernel
  have union : unionDicts .default (farRun count) =
      some ([none, some [0]], (SubfieldColumn.default.internAll ["x"]).2) := by
    simp [farRun, unionDicts, own, interned.1]
  have numbers : (SubfieldColumn.default.set 0 "x").codesOnly none = some [0] := by decide +kernel
  apply mergeSubfieldColumnStreamed_produces (fun _ => rfl) union
  · simp [interned.2]
  · rw [interned.2]
    decide
  · rw [interned.2]
    decide
  · simp [farRun, translatedCodes, numbers]
  · intro source member
    simp only [farRun, List.mem_cons, List.not_mem_nil, or_false] at member
    rcases member with rfl | rfl <;> simp only [maxU32] <;> omega
  · rw [totalDocs_farRun]
    omega
  · have header : (columnBytes ["x"] []).length = 9 := by decide
    rw [interned.2, header, totalDocs_farRun]
    simp only [emptySegment, PostingsSegment.fileSizeLimit]
    omega

/- The value of the document behind `2 ^ 30 - 1` others is written and never read back. -/
theorem merges_disagree :
    ¬ ∀ (run : List SubfieldSource) (store later : SubfieldSegment) (column : SubfieldColumn),
      totalDocs run < 2 ^ 32 → (mergeSubfieldColumnStreamed run store).1 = some column →
        (mergeSubfieldColumnStreamed run store).2.Reaches later →
          (∀ offset length, store.device.reads offset length = true) →
            MergesAgree run (column.materialized (some later))
              (mergeSubfieldColumnResident run) := by
  intro always
  obtain ⟨column, produced⟩ := farRun_produced (le_refl (2 ^ 30 - 1))
  have agree := always (farRun (2 ^ 30 - 1)) emptySegment _ column
    (by rw [totalDocs_farRun]; omega) produced .refl (fun _ _ => rfl)
  have read := streamed_get produced .refl (fun _ _ => rfl) (2 ^ 30 - 1)
  have limit : codesRead = 2 ^ 30 - 1 := by decide
  rw [agree.streamed_own, ownValue_farRun, if_neg (by omega)] at read
  cases read

theorem merges_agree_iff_twoSegments :
    ∃ column, (mergeSubfieldColumnStreamed (farRun 2) emptySegment).1 = some column ∧
      (MergesAgree (farRun 2)
          (column.materialized (some (mergeSubfieldColumnStreamed (farRun 2) emptySegment).2))
          (mergeSubfieldColumnResident (farRun 2)) ↔
        ∀ docId, 2 ^ 30 - 1 ≤ docId → ownValue (farRun 2) docId = none) := by
  obtain ⟨column, produced⟩ := @farRun_produced 2 (by decide)
  exact ⟨column, produced,
    merges_agree_iff (by decide) produced .refl (fun _ _ => rfl)⟩

end FarValue

end Surch.Index
