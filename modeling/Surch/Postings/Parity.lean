import Surch.Codec.Grammar
import Surch.Postings.DictionaryReads

/-! The dictionary on disk against the one in memory, built from the same additions. -/
namespace Surch.Postings
open Surch.Lib Surch.Codec

variable {Digest : Type} {hash : List UInt8 → Digest}

structure Addressable (diskEnabled : Bool) (inverted : Inverted) : Prop where
  total : ∀ name terms, inverted.get? name = some terms →
    (terms.entries.map fun entry => entry.2.1.length).sum < 2 ^ 32
  payload : diskEnabled = true → PayloadsFit inverted

theorem Addressable.fits {diskEnabled : Bool} {additions : List Addition}
    (addressable : Addressable diskEnabled (PostingsBuilder.new.addAll additions).invert) :
    InvertedFits (PostingsBuilder.new.addAll additions).invert := by
  intro name terms at_field
  constructor
  · intro v member
    obtain ⟨⟨term, v⟩, inside, rfl⟩ := List.mem_map.mp member
    have found : find (PostingsBuilder.new.addAll additions).invert name term = some v := by
      rw [find, at_field, Option.bind_some]
      exact (terms.get?_eq_some_iff term v).mpr inside
    exact invert_isPostings found
  · have total := addressable.total name terms at_field
    rwa [List.length_flatten, List.map_map, List.map_map]

/-- Both builds hold the same terms, and every way of reading the one on disk gives the postings
the one in memory serves, wherever its directory ended up. -/
theorem disk_and_memory_agree (hash : List UInt8 → Digest) (additions : List Addition)
    (device memoryDevice : Device) (maxBytes memoryMaxBytes : Nat)
    (addressable : Addressable true (PostingsBuilder.new.addAll additions).invert)
    (intact : Readable ((PostingsBuilder.new.addAll additions).buildWithLimit hash device true
      maxBytes).postingsSegment) :
    let memory := (PostingsBuilder.new.addAll additions).buildWithLimit hash memoryDevice false
      memoryMaxBytes
    let disk := (PostingsBuilder.new.addAll additions).buildWithLimit hash device true maxBytes
    memory.fieldNames = disk.fieldNames ∧ (∀ field, memory.terms field = disk.terms field) ∧
      ∀ field term,
        (term ∈ memory.terms field ↔ memory.postings field term ≠ none) ∧
        (memory.postingsWithBlockMetas field term).map (fun list => (list.docIds, list.freqs)) =
          memory.postings field term ∧
        disk.decodeFromSegment field term = memory.postings field term ∧
        disk.decodeFromSegmentChecked field term = .ok (memory.postings field term) ∧
        match memory.postings field term with
        | none => disk.diskCursor field term = none
        | some (docIds, freqs) => ∃ cursor, disk.diskCursor field term = some cursor ∧
            drain (docIds.length + 1) cursor 0 = docIds.zip freqs ∧
            ∀ targets, trace diskStep cursor targets =
              trace linearWalk (docIds.zip freqs) targets := by
  intro memory disk
  have in_memory : Assembled hash false _ memory := buildWithLimit_assembled hash memoryDevice _ _ _
  have on_disk : Assembled hash true _ disk := buildWithLimit_assembled hash device _ _ _
  have fits := addressable.fits
  have payloads := addressable.payload rfl
  refine ⟨in_memory.fieldNames.trans on_disk.fieldNames.symm, ?_, ?_⟩
  · intro field
    rw [in_memory.terms_eq, on_disk.terms_eq]
  intro field term
  have served := in_memory.postings_memory fits field term
  refine ⟨?_, ?_, ?_, ?_, ?_⟩
  · rw [served, in_memory.terms_eq, find]
    cases at_field : (PostingsBuilder.new.addAll additions).invert.get? field with
    | none => simp
    | some terms =>
      rw [Option.map_some, Option.getD_some, Option.bind_some, terms.mem_keys_iff,
        ← Option.ne_none_iff_exists']
  · rw [served, in_memory.postingsWithBlockMetas_memory fits, Option.map_map]
    exact Option.map_id'
  · rw [served, on_disk.decodeFromSegment_disk fits payloads intact]
  · rw [served, on_disk.decodeFromSegmentChecked_disk fits payloads intact]
  · have cursor := on_disk.diskCursor_disk fits payloads intact field term
    rw [served]
    cases found : find (PostingsBuilder.new.addAll additions).invert field term with
    | none =>
      rw [found] at cursor
      exact cursor
    | some v =>
      rw [found] at cursor
      obtain ⟨opened, at_disk, fresh⟩ := cursor
      have postings := (invert_isPostings found).1
      exact ⟨opened, at_disk, fresh.drain postings, fresh.run postings⟩

section OneTerm

def oneTerm (field term : String) (v : TermPostings) : Inverted :=
  .singleton field (.singleton term v)

variable {field term : String} {v : TermPostings}

theorem find_oneTerm (f t : String) :
    find (oneTerm field term v) f t = if f = field ∧ t = term then some v else none := by
  rw [find, oneTerm, SortedMap.get?_singleton]
  by_cases same : f = field
  · rw [if_pos same, Option.bind_some, SortedMap.get?_singleton]
    simp [same]
  · rw [if_neg same]
    simp [same]

theorem find_oneTerm_self : find (oneTerm field term v) field term = some v := by
  rw [find_oneTerm, if_pos ⟨rfl, rfl⟩]

theorem flushPayload_survives {segment : PostingsSegment} {payload : List UInt8}
    (device : segment.device = .reliable)
    (room : segment.nextOffset + payload.length < PostingsSegment.fileSizeLimit) :
    ∃ next, (flushPayload (some segment) payload).2 = some next ∧ segment.Reaches next := by
  unfold flushPayload
  split
  · exact ⟨segment, rfl, .refl⟩
  · have accepted := PostingsSegment.append_accepted room (by rw [device]; rfl)
    cases appended : segment.append payload with
    | mk outcome next =>
      rw [appended] at accepted
      dsimp only at accepted ⊢
      rw [appended, accepted]
      refine ⟨next, rfl, ?_⟩
      have next_eq : next = (segment.append payload).2 := by rw [appended]
      rw [next_eq]
      exact .append .refl payload

theorem finishField_survives (hash : List UInt8 → Digest) {diskEnabled : Bool} {fst : Fst}
    {channels : FieldChannels} {fieldOrdinal : Nat} {before : BuildState Digest}
    {segment : PostingsSegment} (present : before.postingsSegment = some segment)
    (device : segment.device = .reliable)
    (room : segment.nextOffset + channels.fieldPayload.length < PostingsSegment.fileSizeLimit) :
    Readable (finishField hash diskEnabled fst channels fieldOrdinal before).1.postingsSegment := by
  cases finished : finishField hash diskEnabled fst channels fieldOrdinal before with
  | mk after field =>
    obtain ⟨flushed, tables, flush, persisted, _⟩ := finishField_steps hash finished
    obtain ⟨next, survived, reached⟩ := flushPayload_survives device room
    rw [present] at flush
    rw [flush, survived] at persisted
    have extended : ∃ last, after.postingsSegment = some last ∧ next.Reaches last := by
      rcases persist_cases hash persisted with kept | ⟨_, _, _, _, _, _, spilled⟩
      · have grown := kept.segment
        dsimp only at grown
        cases left : after.postingsSegment with
        | none =>
          rw [left] at grown
          cases grown
        | some last =>
          rw [left] at grown
          cases grown with
          | grown later => exact ⟨last, rfl, later⟩
      · obtain ⟨first, last, found, left, later, _⟩ := spilled.segment
        cases found
        exact ⟨last, left, later⟩
    obtain ⟨last, left, later⟩ := extended
    refine ⟨last, left, ?_⟩
    intro offset length
    rw [(reached.trans later).device, device]
    rfl

theorem assemble_singleton (hash : List UInt8 → Digest) (device : Device) (diskEnabled : Bool)
    (maxBytes : Nat) (name : String) (input : Fst × FieldChannels) :
    (assemble hash device diskEnabled maxBytes (.singleton name input)).postingsSegment =
      (finishField hash diskEnabled input.1 input.2 0
        { postingsSegment := PostingsSegment.tryNew device
          p2Integrity := .withMaxBytes maxBytes
          postingsSkippedTerms := 0 }).1.postingsSegment := rfl

theorem assemble_readable (hash : List UInt8 → Digest) (diskEnabled : Bool) (maxBytes : Nat)
    (numbering : Nat → Nat) (small : (termPayload v).length < PostingsSegment.fileSizeLimit) :
    Readable (assemble hash .reliable diskEnabled maxBytes
      ((oneTerm field term v).map (fieldInput diskEnabled numbering))).postingsSegment := by
  have payload : (fieldInput diskEnabled numbering (.singleton term v)).2.fieldPayload =
      termPayload v := by
    simp [fieldInput, filled, SortedMap.singleton]
  have start : emptySegment.nextOffset = 0 := rfl
  rw [oneTerm, SortedMap.map_singleton, assemble_singleton]
  apply finishField_survives hash (rfl : _ = some emptySegment) rfl
  rw [payload]
  omega

theorem oneTerm_readable (hash : List UInt8 → Digest) {builder : PostingsBuilder}
    (index : builder.invert = oneTerm field term v) (diskEnabled : Bool) (maxBytes : Nat)
    (small : (termPayload v).length < PostingsSegment.fileSizeLimit) :
    Readable (builder.buildWithLimit hash .reliable diskEnabled maxBytes).postingsSegment := by
  rw [buildWithLimit_eq, index]
  exact assemble_readable hash diskEnabled maxBytes id small

def spell (field term : String) (v : TermPostings) (fits : ∀ d ∈ v.1, d < 2 ^ 32) : List Addition :=
  (v.1.zip v.2).attach.map fun p =>
    { field, term
      docId := p.1.1
      positions := List.replicate p.1.2 0
      docId_fits := fits p.1.1 (List.of_mem_zip p.2).1 }

theorem mem_spell {fits : ∀ d ∈ v.1, d < 2 ^ 32} {a : Addition}
    (member : a ∈ spell field term v fits) : a.field = field ∧ a.term = term := by
  obtain ⟨p, _, rfl⟩ := List.mem_map.mp member
  exact ⟨rfl, rfl⟩

theorem accepted_spell (visible : isBlank field = false) (visible_term : isBlank term = false)
    {fits : ∀ d ∈ v.1, d < 2 ^ 32} {a : Addition} (member : a ∈ spell field term v fits) :
    a.accepted = true := by
  obtain ⟨same, same_term⟩ := mem_spell member
  rw [Addition.accepted, same, same_term, visible, visible_term]
  rfl

theorem posting_spell (fits : ∀ d ∈ v.1, d < 2 ^ 32) (freqs_fit : ∀ f ∈ v.2, f < 2 ^ 32)
    (positive : ∀ f ∈ v.2, 0 < f) :
    (spell field term v fits).map Addition.posting = (v.1.zip v.2).map fun p => ⟨p.1, p.2⟩ := by
  rw [spell, List.map_map]
  refine Eq.trans (List.map_congr_left ?_) List.attach_map_val
  rintro ⟨p, member⟩ -
  have freq := (List.of_mem_zip member).2
  have some_left := positive p.2 freq
  have small := freqs_fit p.2 freq
  have count : freqFromPositions (List.replicate p.2 0) = p.2 := by
    rw [freqFromPositions, if_neg (by simp; omega), List.length_replicate, Nat.mod_eq_of_lt small]
  simp only [Function.comp_apply, Addition.posting, count]

theorem postingsOf_spell (visible : isBlank field = false) (visible_term : isBlank term = false)
    (postings : IsPostings v.1 v.2) (positive : ∀ f ∈ v.2, 0 < f) (f t : String) :
    Addition.postingsOf (spell field term v postings.docs_fit) f t =
      if f = field ∧ t = term then (v.1.zip v.2).map fun p => ⟨p.1, p.2⟩ else [] := by
  rw [Addition.postingsOf]
  split
  · rename_i same
    obtain ⟨rfl, rfl⟩ := same
    rw [← posting_spell postings.docs_fit postings.freqs_fit positive,
      ← List.filterMap_eq_map, List.filterMap_congr]
    intro a member
    rw [if_pos ⟨accepted_spell visible visible_term member, mem_spell member⟩]
    rfl
  · rename_i other
    rw [List.filterMap_eq_nil_iff]
    intro a member
    obtain ⟨same, same_term⟩ := mem_spell member
    rw [if_neg]
    rintro ⟨_, here, here_term⟩
    exact other ⟨by rw [← here, same], by rw [← here_term, same_term]⟩

theorem invert_spell (visible : isBlank field = false) (visible_term : isBlank term = false)
    (postings : IsPostings v.1 v.2) (nonempty : v.1 ≠ []) (positive : ∀ f ∈ v.2, 0 < f) :
    (PostingsBuilder.new.addAll (spell field term v postings.docs_fit)).invert =
      oneTerm field term v := by
  have aligned := postings.aligned
  have some_left : (v.1.zip v.2).map (fun p => (⟨p.1, p.2⟩ : Posting)) ≠ [] := by
    rw [ne_eq, List.map_eq_nil_iff, List.zip_eq_nil_iff, not_or]
    refine ⟨nonempty, ?_⟩
    rw [← List.length_eq_zero_iff, ← aligned, List.length_eq_zero_iff]
    exact nonempty
  have docs : ((v.1.zip v.2).map fun p => (⟨p.1, p.2⟩ : Posting)).map Posting.docId = v.1 := by
    rw [List.map_map]
    exact List.map_fst_zip aligned.le
  have freqs : ((v.1.zip v.2).map fun p => (⟨p.1, p.2⟩ : Posting)).map Posting.freq = v.2 := by
    rw [List.map_map]
    exact List.map_snd_zip aligned.ge
  have settled : termPostings ((v.1.zip v.2).map fun p => ⟨p.1, p.2⟩) = v := by
    rw [termPostings, settle_of_increasing, docs, freqs]
    rw [docs]
    exact List.isChain_iff_pairwise.mp postings.increasing
  have found : ∀ f t, find (PostingsBuilder.new.addAll
      (spell field term v postings.docs_fit)).invert f t = find (oneTerm field term v) f t := by
    intro f t
    rw [find_invert, find_addAll, postingsOf_spell visible visible_term postings positive,
      find_oneTerm]
    by_cases same : f = field ∧ t = term
    · rw [if_pos same, if_pos same, if_neg some_left, Option.map_some, settled]
    · rw [if_neg same, if_neg same, if_pos rfl]
      rfl
  apply nested_ext
  · intro f
    rw [invert_field, field_present, oneTerm, SortedMap.get?_singleton]
    by_cases same : f = field
    · have here := found field term
      rw [find_oneTerm, if_pos ⟨rfl, rfl⟩, find_invert, find] at here
      rw [← field_present, same, if_pos rfl]
      cases at_field : (PostingsBuilder.new.addAll
          (spell field term v postings.docs_fit)).fields.get? field with
      | none =>
        rw [at_field] at here
        cases here
      | some terms => rfl
    · rw [if_neg same, Option.isSome_none, List.any_eq_false]
      intro a member
      rw [(mem_spell member).1]
      simp [Ne.symm same]
  · exact found

theorem oneTerm_fits (postings : IsPostings v.1 v.2) (nonempty : v.1 ≠ [])
    (few : v.1.length < 2 ^ 32) : InvertedFits (oneTerm field term v) := by
  intro name terms at_field
  rw [oneTerm, SortedMap.get?_singleton] at at_field
  split at at_field
  · cases at_field
    constructor
    · intro w member
      rw [List.mem_singleton.mp member]
      exact ⟨postings, nonempty⟩
    · simpa [SortedMap.singleton] using few
  · cases at_field

theorem oneTerm_addressable (few : v.1.length < 2 ^ 32) (small : (termPayload v).length < 2 ^ 32) :
    Addressable true (oneTerm field term v) := by
  constructor
  · intro name terms at_field
    rw [oneTerm, SortedMap.get?_singleton] at at_field
    split at at_field
    · cases at_field
      simpa [SortedMap.singleton] using few
    · cases at_field
  · intro _ f t w found
    rw [find_oneTerm] at found
    split at found
    · cases found
      exact small
    · cases found

end OneTerm

/- Two additions, out of order. -/
theorem disk_and_memory_agree_two_additions :
    ((PostingsBuilder.new.addAll [⟨"title", "rust", 3, [0, 4], by decide⟩,
      ⟨"title", "rust", 1, [2], by decide⟩]).buildWithDiskFlag id .reliable true).decodeFromSegment
        "title" "rust" = some ([1, 3], [1, 2]) := by
  have index : (PostingsBuilder.new.addAll [⟨"title", "rust", 3, [0, 4], by decide⟩,
      ⟨"title", "rust", 1, [2], by decide⟩]).invert = oneTerm "title" "rust" ([1, 3], [1, 2]) := by
    decide +kernel
  have payload : (termPayload ([1, 3], [1, 2])).length = 5 := by
    decide +kernel
  have addressable : Addressable true (PostingsBuilder.new.addAll [⟨"title", "rust", 3, [0, 4], by decide⟩,
      ⟨"title", "rust", 1, [2], by decide⟩]).invert := by
    rw [index]
    exact oneTerm_addressable (by decide) (by omega)
  have agree := disk_and_memory_agree id _ .reliable .reliable p2IntegrityMaxBytes
    p2IntegrityMaxBytes addressable
    (oneTerm_readable id index true _ (by rw [payload]; decide))
  have in_memory := (buildWithLimit_assembled id .reliable _ false p2IntegrityMaxBytes).postings_memory
    addressable.fits "title" "rust"
  rw [index, find_oneTerm_self] at in_memory
  exact (agree.2.2 "title" "rust").2.2.1.trans in_memory

section Wide

variable {field term : String} {n : Nat} {dictionary : TermDictionary Digest}

/- A term of the wide family whose payload passes `2 ^ 32` bytes, and no more than a block. -/
structure Overflows (n : Nat) : Prop where
  small : forBlockSize * n ≤ 2 ^ 32
  wide : 2 ^ 32 ≤ (termPayload (wideDocs n, wideFreqs n)).length
  close : (termPayload (wideDocs n, wideFreqs n)).length < 2 ^ 32 + 152

theorem exists_overflows : ∃ n, Overflows n := by
  obtain ⟨n, _, small, wide, _, close⟩ := exists_wide_term
  have payload := (encoded_term (v := (wideDocs n, wideFreqs n)) (wide_isPostings small)).2.1
  exact ⟨n, small, by rw [payload]; exact wide, by rw [payload]; exact close⟩

namespace Overflows

theorem postings (overflows : Overflows n) : IsPostings (wideDocs n) (wideFreqs n) :=
  wide_isPostings overflows.small

theorem bounds (overflows : Overflows n) : 152 < 2 * n ∧ forBlockSize * n < 2 ^ 32 := by
  have payload := (encoded_term (v := (wideDocs n, wideFreqs n)) overflows.postings).2.1
  have length := wide_payload_length overflows.small
  have bounds := wide_blockOffset_bounds overflows.small n le_rfl
  have wide := overflows.wide
  have close := overflows.close
  rw [payload] at wide close
  dsimp only at wide close
  simp only [forBlockSize]
  omega

theorem nonempty (overflows : Overflows n) : wideDocs n ≠ [] := by
  have bounds := overflows.bounds
  rw [ne_eq, ← List.length_eq_zero_iff, wideDocs, List.length_range]
  simp only [forBlockSize]
  omega

theorem fits (overflows : Overflows n) :
    InvertedFits (oneTerm field term (wideDocs n, wideFreqs n)) := by
  refine oneTerm_fits overflows.postings overflows.nonempty ?_
  rw [wideDocs, List.length_range]
  exact overflows.bounds.2

theorem index (overflows : Overflows n) (field term : String) (visible : isBlank field = false)
    (visible_term : isBlank term = false) :
    (PostingsBuilder.new.addAll (spell field term (wideDocs n, wideFreqs n)
      overflows.postings.docs_fit)).invert = oneTerm field term (wideDocs n, wideFreqs n) :=
  invert_spell visible visible_term overflows.postings overflows.nonempty fun _ => wideFreqs_pos

/-- The stored length has lost its high bit. -/
theorem served (overflows : Overflows n)
    (assembled : Assembled hash true (oneTerm field term (wideDocs n, wideFreqs n)) dictionary)
    (intact : Readable dictionary.postingsSegment) :
    ∃ segment fieldPostings i entry, dictionary.postingsSegment = some segment ∧
      dictionary.fields.get? field = some fieldPostings ∧ fieldPostings.fst.get? term = some i ∧
      TermServed fieldPostings segment i (wideDocs n, wideFreqs n) entry ∧
      entry.postingsLen < 2 * n ∧ entry.postingsCount = forBlockSize * n := by
  obtain ⟨segment, present, readable⟩ := intact
  obtain ⟨fieldPostings, i, entry, at_field, number, _, _, _, served, _⟩ :=
    assembled.served overflows.fits present readable find_oneTerm_self
  have wide := overflows.wide
  have close := overflows.close
  have bounds := overflows.bounds
  refine ⟨segment, fieldPostings, i, entry, present, at_field, number, served, ?_, ?_⟩
  · rw [served.postingsLen]
    omega
  · rw [served.postingsCount, wideDocs, List.length_range]

theorem decodeFromSegment_none (overflows : Overflows n)
    (assembled : Assembled hash true (oneTerm field term (wideDocs n, wideFreqs n)) dictionary)
    (intact : Readable dictionary.postingsSegment) :
    dictionary.decodeFromSegment field term = none := by
  obtain ⟨segment, fieldPostings, i, entry, present, at_field, number, served, length, count⟩ :=
    overflows.served assembled intact
  simp only [TermDictionary.decodeFromSegment, at_field, Option.bind_eq_bind, Option.bind_some,
    number, present, served.lossy]
  split
  · rfl
  cases read : segment.read entry.postingsOffset entry.postingsLen with
  | none => rfl
  | some bytes =>
    have size := PostingsSegment.read_length read
    have short_bytes : bytes.length < 2 * n := by omega
    obtain ⟨e, short⟩ := decode_short short_bytes
    rw [Option.bind_some, count, short]
    rfl

end Overflows

/-- A term whose payload passes `2 ^ 32` bytes is served from memory and not from the disk. -/
theorem disk_and_memory_disagree_on_wide_payload :
    ¬ ∀ additions : List Addition,
      Readable ((PostingsBuilder.new.addAll additions).buildWithDiskFlag id .reliable
        true).postingsSegment → ∀ field term,
        ((PostingsBuilder.new.addAll additions).buildWithDiskFlag id .reliable
            true).decodeFromSegment field term =
          ((PostingsBuilder.new.addAll additions).buildWithDiskFlag id .reliable false).postings
            field term := by
  intro agree
  obtain ⟨n, overflows⟩ := exists_overflows
  have index := overflows.index "title" "rust" (by decide) (by decide)
  have close := overflows.close
  have intact := oneTerm_readable id index true p2IntegrityMaxBytes
    (by rw [PostingsSegment.fileSizeLimit]; omega)
  have on_disk := buildWithLimit_assembled id .reliable (PostingsBuilder.new.addAll (spell "title"
    "rust" (wideDocs n, wideFreqs n) overflows.postings.docs_fit)) true p2IntegrityMaxBytes
  have in_memory := buildWithLimit_assembled id .reliable (PostingsBuilder.new.addAll (spell "title"
    "rust" (wideDocs n, wideFreqs n) overflows.postings.docs_fit)) false p2IntegrityMaxBytes
  rw [index] at on_disk in_memory
  have lost := overflows.decodeFromSegment_none on_disk intact
  have kept := in_memory.postings_memory overflows.fits "title" "rust"
  rw [find_oneTerm_self] at kept
  have same := agree _ intact "title" "rust"
  rw [PostingsBuilder.buildWithDiskFlag, PostingsBuilder.buildWithDiskFlag, lost, kept] at same
  cases same

end Wide

end Surch.Postings
