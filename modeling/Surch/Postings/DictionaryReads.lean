import Surch.Postings.Serving

/-! The accessors of a whole dictionary against the inverted index it was assembled from. -/
namespace Surch.Postings
open Surch.Lib Surch.Codec

variable {Digest : Type} {hash : List UInt8 → Digest}

def Readable (segment : Option PostingsSegment) : Prop :=
  ∃ present, segment = some present ∧ ∀ offset length, present.device.reads offset length = true

structure Fresh (v : TermPostings) (cursor : DiskPostingsCursor) : Prop where
  opened : Opened v.1 v.2 cursor
  cached : Cached v.1 v.2 cursor
  start : consumed v.1 cursor = 0

section Cursor

variable {v : TermPostings} {cursor : DiskPostingsCursor}

theorem Fresh.run (fresh : Fresh v cursor) (postings : IsPostings v.1 v.2) (targets : List Nat) :
    trace diskStep cursor targets = trace linearWalk (v.1.zip v.2) targets := by
  have same := (disk_run postings fresh.opened fresh.cached targets).1
  rwa [fresh.start, List.drop_zero] at same

theorem no_error_run (postings : IsPostings v.1 v.2) (opened : Opened v.1 v.2 cursor)
    (cached : Cached v.1 v.2 cursor) (targets : List Nat) :
    ∀ status ∈ trace DiskPostingsCursor.advanceToWithStatus cursor targets,
      status ≠ .error := by
  induction targets generalizing cursor with
  | nil => simp [trace]
  | cons target targets ih =>
    obtain ⟨opened', cached', outcome⟩ := advanceToWithStatus_spec postings target opened cached
    intro status member
    rw [trace] at member
    rcases List.mem_cons.mp member with rfl | later
    · rcases outcome with ⟨_, exhausted, _⟩ | ⟨docId, _, answer, _, _⟩
      · rw [exhausted]
        simp
      · rw [answer]
        simp
    · exact ih opened' cached' status later

/- `advance_to` driven past each answer, as a caller that collects all postings does. -/
def drain : (steps : Nat) → DiskPostingsCursor → (target : Nat) → List (Nat × Nat)
  | 0, _, _ => []
  | steps + 1, cursor, target =>
    match diskStep cursor target with
    | (some posting, cursor) => posting :: drain steps cursor (posting.1 + 1)
    | (none, _) => []

theorem drain_of_trace {cursor : DiskPostingsCursor} {target : Nat} {postings : List (Nat × Nat)}
    (answers : trace diskStep cursor (target :: postings.map fun p => p.1 + 1) =
      postings.map some ++ [none]) :
    drain (postings.length + 1) cursor target = postings := by
  induction postings generalizing cursor target with
  | nil =>
    rw [List.map_nil, trace, trace] at answers
    have here := List.head_eq_of_cons_eq answers
    rw [List.length_nil, Nat.zero_add, drain]
    split
    · rename_i found
      rw [found] at here
      cases here
    · rfl
  | cons p postings ih =>
    rw [List.map_cons, trace, List.map_cons, List.cons_append] at answers
    obtain ⟨here, rest⟩ := List.cons_eq_cons.mp answers
    rw [List.length_cons, drain]
    split
    · rename_i q next found
      rw [found] at here rest
      cases here
      rw [ih rest]
    · rename_i next found
      rw [found] at here
      cases here

theorem linearWalk_all (entries : List (Nat × Nat)) (target : Nat)
    (above : ∀ p ∈ entries, target ≤ p.1) (increasing : (entries.map Prod.fst).Pairwise (· < ·)) :
    trace linearWalk entries (target :: entries.map fun p => p.1 + 1) =
      entries.map some ++ [none] := by
  induction entries generalizing target with
  | nil => rfl
  | cons p entries ih =>
    have tail := List.pairwise_cons.mp increasing
    rw [trace, linearWalk, if_pos (above p List.mem_cons_self)]
    simp only [List.map_cons, List.cons_append]
    rw [ih (p.1 + 1) ?_ tail.2]
    intro q member
    exact tail.1 q.1 (List.mem_map.mpr ⟨q, member, rfl⟩)

theorem Fresh.drain (fresh : Fresh v cursor) (postings : IsPostings v.1 v.2) :
    Postings.drain (v.1.length + 1) cursor 0 = v.1.zip v.2 := by
  have docs : (v.1.zip v.2).map Prod.fst = v.1 := List.map_fst_zip postings.aligned.le
  have size : (v.1.zip v.2).length = v.1.length := by
    rw [List.length_zip]
    have := postings.aligned
    omega
  rw [← size]
  apply drain_of_trace
  rw [fresh.run postings]
  apply linearWalk_all
  · intro p _
    exact Nat.zero_le _
  · rw [docs]
    exact List.isChain_iff_pairwise.mp postings.increasing

end Cursor

section Attested

variable {terms : List TermPostings} {field : FieldPostings} {i : Nat} {v : TermPostings}

theorem covering_narrow {region : P2VerifiedRegion} {rangeBase rangeLen : Nat}
    (after : region.dataBase ≤ rangeBase) (small : rangeLen + 8192 < 2 ^ 32) :
    coveringEnd region rangeBase rangeLen - coveringStart region rangeBase < 2 ^ 32 := by
  simp only [coveringEnd, coveringStart, p2IntegrityPageLen]
  omega

theorem readVerified_published [DecidableEq Digest] {segment : PostingsSegment}
    (readable : ∀ offset length, segment.device.reads offset length = true)
    {integrity : P2IntegrityTable Digest} (small : integrity.digests.length < 2 ^ 32)
    {kind : P2RegionKind} {dataBase : Nat} {before bytes after : List UInt8}
    {digested : P2DigestedRegion Digest}
    (held : segment.Holds dataBase (before ++ bytes ++ after))
    (published : Published hash integrity.digests kind dataBase (before ++ bytes ++ after) digested)
    (nonempty : bytes ≠ []) (short : bytes.length + 8192 < 2 ^ 32) :
    readVerifiedRange hash segment digested.region integrity (dataBase + before.length)
      bytes.length = .ok bytes := by
  obtain ⟨attested, base⟩ := published.attested small
  have whole : segment.Holds digested.region.dataBase (before ++ bytes ++ after) := by
    rw [base]
    exact held
  have positive := List.length_pos_iff.mpr nonempty
  rw [readVerifiedRange_complete attested whole readable positive (by omega)
    (by rw [List.length_append, List.length_append]; omega)
    (covering_narrow (by omega) short), base, Nat.add_sub_cancel_left, List.append_assoc,
    List.drop_left, List.take_left]

structure P2Served [DecidableEq Digest] (hash : List UInt8 → Digest) (field : FieldPostings)
    (segment : PostingsSegment) (integrity : P2IntegrityTable Digest) (i : Nat) (v : TermPostings)
    (entry : TermEntry) : Prop where
  entry_verified : field.termEntryP2Verified hash i segment integrity = .ok entry
  directory_verified : field.blockDirectoryP2Verified hash entry (termDirectory v).length segment
    integrity = .ok (termDirectory v)

/-- A stored field serves each of its terms, and serves it attested when it was published. -/
theorem stored_served (fits : FieldFits terms) {segment : PostingsSegment} {digests : List Digest}
    (stored : FieldStored hash segment digests terms field)
    (readable : ∀ offset length, segment.device.reads offset length = true)
    (here : terms[i]? = some v) :
    ∃ entry, TermServed field segment i v entry ∧
      ∀ [DecidableEq Digest] (integrity : P2IntegrityTable Digest), integrity.digests = digests →
        integrity.digests.length < 2 ^ 32 → field.p2Integrity ≠ none →
        P2Served hash field segment integrity i v entry := by
  obtain ⟨base, held, located⟩ := stored (fits.payload_ne_nil here)
  cases located with
  | resident directory integrity descriptors offsets blocks blockOffsets =>
    refine ⟨_, served_resident fits held here directory descriptors offsets blocks blockOffsets, ?_⟩
    intro _ _ _ _ published
    exact absurd integrity published
  | spilled blockDirBase entriesBase entries directoryIntegrity entriesIntegrity directory few
      records blocks_held entries_held integrity directory_published entries_published =>
    obtain ⟨listed, entry_fits, served⟩ := served_spilled fits readable held here directory records
      blocks_held entries_held
    refine ⟨_, served, ?_⟩
    rintro _ table rfl small -
    have fits_segment := segment.offset_fits
    obtain ⟨some_blocks, few_blocks⟩ := directory_bytes_small fits here
    have base_eq := (entries_published.attested small).2
    have postings := (fits.postings v (List.mem_of_getElem? here)).1
    constructor
    · -- the record of term `i` inside the attested table
      have record := entry_held entries_held listed
      have below := record.below
      rw [encodeTermEntry_length] at below
      obtain ⟨before, after, table_eq, length⟩ := entry_split listed
      rw [table_eq] at entries_held entries_published
      have read := readVerified_published readable small entries_held entries_published
        (by rw [← List.length_pos_iff, encodeTermEntry_length]; decide)
        (by rw [encodeTermEntry_length]; decide)
      rw [length, encodeTermEntry_length] at read
      rw [FieldPostings.termEntryP2Verified, integrity]
      simp only [base_eq]
      rw [if_neg (by omega), if_neg (by omega), read]
      simp only [bind, Except.bind, decode_encodeTermEntry entry_fits]
    · have row := row_getElem? termDirectory here
      have cut : ((filled true terms).directoryChannels (some base)).blockDirectory.flatMap
            encodeBlockDirEntry =
          ((terms.map termDirectory).take i).flatten.flatMap encodeBlockDirEntry ++
            (termDirectory v).flatMap encodeBlockDirEntry ++
            ((terms.map termDirectory).drop (i + 1)).flatten.flatMap encodeBlockDirEntry := by
        rw [← List.flatMap_append, ← List.flatMap_append, ← flatten_split row]
        rfl
      rw [cut] at blocks_held directory_published
      have run_length := encodedDirectory_length (termDirectory v)
      have read := readVerified_published readable small blocks_held directory_published
        (by
          rw [← List.length_pos_iff, run_length]
          exact Nat.mul_pos some_blocks (by decide))
        (by rw [run_length]; exact few_blocks)
      rw [run_length, encodedDirectory_length, ← rowStart_eq_flatten] at read
      rw [FieldPostings.blockDirectoryP2Verified, integrity]
      simp only [ne_eq, not_true_eq_false, if_false, servedEntry]
      rw [read]
      simp only [bind, Except.bind,
        decode_encodeBlockDirEntries (termDirectory v) (termDirectory_fits postings)]

end Attested

section Shape

variable {docIds freqs : List Nat}

theorem directoryShape_chunks (postings : IsPostings docIds freqs) (offset : Nat)
    (fits : offset + (chunkPayload (postingsChunks docIds freqs)).length < 2 ^ 32) :
    directoryShape docIds.length (chunkDirectory offset (postingsChunks docIds freqs)) = true := by
  induction docIds using chunks_induction forBlockSize_pos generalizing freqs offset with
  | nil =>
    rw [postingsChunks, chunks_nil, List.zip_nil_left]
    rfl
  | step docIds nonempty ih =>
    have positive := List.length_pos_iff.mpr nonempty
    have increasing := List.isChain_iff_pairwise.mp postings.increasing
    have chunk := postingsChunks_cons postings.aligned nonempty
    have block := two_le_block_length (docIds.take forBlockSize) (freqs.take forBlockSize)
    rw [chunk, chunkPayload_cons, List.length_append] at fits
    dsimp only at fits
    have tail := ih (postings.drop forBlockSize)
      (offset + (encodeBlockInto (docIds.take forBlockSize) (freqs.take forBlockSize)).1.length)
      (by omega)
    rw [List.length_drop] at tail
    have count : (docIds.take forBlockSize).length % 2 ^ 16 = min docIds.length forBlockSize := by
      rw [List.length_take]
      simp only [forBlockSize]
      omega
    have left : docIds.length - min docIds.length forBlockSize = docIds.length - forBlockSize := by
      omega
    rw [chunk, chunkDirectory, directoryShape]
    simp only [count, left, tail, beq_self_eq_true, Bool.true_and, Bool.and_true]
    by_cases more : docIds.drop forBlockSize = []
    · have none_left : postingsChunks (docIds.drop forBlockSize) (freqs.drop forBlockSize) = [] := by
        rw [more, postingsChunks, chunks_nil, List.zip_nil_left]
      rw [none_left]
      rfl
    · rw [postingsChunks_cons (postings.drop forBlockSize).aligned more, chunkDirectory]
      have first_last : (docIds.take forBlockSize).getLastD 0 ∈ docIds.take forBlockSize := by
        have some_first : docIds.take forBlockSize ≠ [] := by
          simpa [List.take_eq_nil_iff, nonempty] using by decide
        rw [List.getLastD_eq_getLast?, List.getLast?_eq_some_getLast some_first, Option.getD_some]
        exact List.getLast_mem some_first
      have next_last : ((docIds.drop forBlockSize).take forBlockSize).getLastD 0 ∈
          docIds.drop forBlockSize := by
        have some_next : (docIds.drop forBlockSize).take forBlockSize ≠ [] := by
          simpa [List.take_eq_nil_iff, more] using by decide
        rw [List.getLastD_eq_getLast?, List.getLast?_eq_some_getLast some_next, Option.getD_some]
        exact List.mem_of_mem_take (List.getLast_mem some_next)
      rw [← List.take_append_drop forBlockSize docIds, List.pairwise_append] at increasing
      have ordered := increasing.2.2 _ first_last _ next_last
      simp only [List.head?_cons, Option.all_some, Bool.and_eq_true, decide_eq_true_eq]
      exact ⟨by omega, ordered⟩

theorem expectedShape_encoded {v : TermPostings} (postings : IsPostings v.1 v.2)
    (nonempty : v.1 ≠ []) (small : (termPayload v).length < 2 ^ 32) :
    p2DirectoryHasExpectedShape (termDirectory v) v.1.length (termPayload v).length = true := by
  obtain ⟨_, payload, directory⟩ := encoded_term postings
  have positive := List.length_pos_iff.mpr nonempty
  have aligned := postings.aligned
  rw [payload] at small ⊢
  have shape := directoryShape_chunks postings 0 (by omega)
  have length := termDirectory_length postings
  rw [directory] at length
  have blocks : 0 < (v.1.length + forBlockSize - 1) / forBlockSize := by
    simp only [forBlockSize]
    omega
  have head : ∃ entry, (chunkDirectory 0 (postingsChunks v.1 v.2)).head? = some entry ∧
      entry.byteOffsetInTermPayload = 0 := by
    rw [List.head?_eq_getElem?, chunkDirectory_entry aligned, if_pos (by omega)]
    exact ⟨_, rfl, rfl⟩
  have last : ∃ entry, (chunkDirectory 0 (postingsChunks v.1 v.2)).getLast? = some entry ∧
      entry.byteOffsetInTermPayload < (chunkPayload (postingsChunks v.1 v.2)).length := by
    have inside : forBlockSize * ((v.1.length + forBlockSize - 1) / forBlockSize - 1) <
        v.1.length := by
      simp only [forBlockSize]
      omega
    rw [List.getLast?_eq_getElem?, length, chunkDirectory_entry aligned, if_pos inside]
    refine ⟨_, rfl, ?_⟩
    have ends := blockOffset_succ aligned _ inside
    have least := two_le_block_length
      (blockDocs v.1 ((v.1.length + forBlockSize - 1) / forBlockSize - 1))
      (blockDocs v.2 ((v.1.length + forBlockSize - 1) / forBlockSize - 1))
    have bound := blockOffset_le v.1 v.2
      ((v.1.length + forBlockSize - 1) / forBlockSize - 1 + 1)
    simp only [Nat.mod_eq_of_lt (show blockOffset v.1 v.2
      ((v.1.length + forBlockSize - 1) / forBlockSize - 1) < 2 ^ 32 by omega)]
    omega
  obtain ⟨first, at_first, zero⟩ := head
  obtain ⟨final, at_last, below⟩ := last
  rw [directory, p2DirectoryHasExpectedShape, length, at_first, at_last, shape]
  simp [zero, below, positive.ne']

theorem validate_encoded {v : TermPostings} (postings : IsPostings v.1 v.2) (nonempty : v.1 ≠ [])
    {entry : TermEntry} (len : entry.postingsLen = (termPayload v).length)
    (count : entry.postingsCount = v.1.length) : entry.validate = .ok () := by
  have some_bytes := List.length_pos_iff.mpr (termPayload_ne_nil postings nonempty)
  have positive := List.length_pos_iff.mpr nonempty
  have dense := payload_density postings
  rw [← (encoded_term postings).2.1] at dense
  rw [TermEntry.validate, len, count, if_neg (by omega), if_neg]
  simp only [maxPostingsPerPayloadByte]
  omega

end Shape

def InvertedFits (inverted : Inverted) : Prop :=
  ∀ name terms, inverted.get? name = some terms → FieldFits (terms.entries.map Prod.snd)

def PayloadsFit (inverted : Inverted) : Prop :=
  ∀ field term v, find inverted field term = some v → (termPayload v).length < 2 ^ 32

namespace Assembled

variable {diskEnabled : Bool} {inverted : Inverted} {dictionary : TermDictionary Digest}
  {field term : String} {v : TermPostings}

theorem locate (assembled : Assembled hash diskEnabled inverted dictionary)
    (fits : InvertedFits inverted) (found : find inverted field term = some v) :
    ∃ terms fieldPostings i, inverted.get? field = some terms ∧
      dictionary.fields.get? field = some fieldPostings ∧
      FieldOf hash diskEnabled dictionary.postingsSegment dictionary.p2Integrity.digests terms
        fieldPostings ∧
      FieldFits (terms.entries.map Prod.snd) ∧ fieldPostings.fst.get? term = some i ∧
      (terms.entries.map Prod.snd)[i]? = some v := by
  obtain ⟨terms, at_field, at_term⟩ := Option.bind_eq_some_iff.mp found
  obtain ⟨fieldPostings, present, fieldOf⟩ := assembled.field field terms at_field
  obtain ⟨i, listed⟩ := SortedMap.exists_index at_term
  have field_fits := fits field terms at_field
  have value : (terms.entries.map Prod.snd)[i]? = some v := by
    rw [List.getElem?_map, listed]
    rfl
  have few := field_fits.terms_few
  have inside := (List.getElem?_eq_some_iff.mp value).1
  exact ⟨terms, fieldPostings, i, at_field, present, fieldOf, field_fits,
    fieldOf.indexed.number i term v (by omega) listed, value⟩

theorem absent (assembled : Assembled hash diskEnabled inverted dictionary)
    (missing : find inverted field term = none) :
    dictionary.fields.get? field = none ∨
      ∃ fieldPostings, dictionary.fields.get? field = some fieldPostings ∧
        fieldPostings.fst.get? term = none := by
  rw [find] at missing
  cases at_field : inverted.get? field with
  | none =>
    left
    rw [SortedMap.get?_eq_none_iff, assembled.keys]
    exact (inverted.get?_eq_none_iff field).mp at_field
  | some terms =>
    rw [at_field, Option.bind_some] at missing
    obtain ⟨fieldPostings, present, fieldOf⟩ := assembled.field field terms at_field
    refine .inr ⟨fieldPostings, present, ?_⟩
    rw [SortedMap.get?_eq_none_iff, fieldOf.indexed.keys]
    exact (terms.get?_eq_none_iff term).mp missing

theorem fieldNames (assembled : Assembled hash diskEnabled inverted dictionary) :
    dictionary.fieldNames = inverted.keys := assembled.keys

theorem terms_eq (assembled : Assembled hash diskEnabled inverted dictionary) (field : String) :
    dictionary.terms field = ((inverted.get? field).map SortedMap.keys).getD [] := by
  rw [TermDictionary.terms]
  cases at_field : inverted.get? field with
  | none =>
    have gone : dictionary.fields.get? field = none := by
      rw [SortedMap.get?_eq_none_iff, assembled.keys]
      exact (inverted.get?_eq_none_iff field).mp at_field
    rw [gone]
    rfl
  | some terms =>
    obtain ⟨fieldPostings, present, fieldOf⟩ := assembled.field field terms at_field
    rw [present]
    exact fieldOf.indexed.keys

section Memory

theorem postings_memory (assembled : Assembled hash false inverted dictionary)
    (fits : InvertedFits inverted) (field term : String) :
    dictionary.postings field term = find inverted field term := by
  cases found : find inverted field term with
  | none =>
    rw [TermDictionary.postings]
    rcases assembled.absent found with gone | ⟨fieldPostings, present, gone⟩
    · rw [gone]
      rfl
    · rw [present, Option.bind_eq_bind, Option.bind_some, FieldPostings.lookup,
        FieldPostings.termRange, gone]
      rfl
  | some v =>
    obtain ⟨terms, fieldPostings, i, _, present, fieldOf, field_fits, number, value⟩ :=
      assembled.locate fits found
    rw [TermDictionary.postings, present, Option.bind_eq_bind, Option.bind_some,
      lookup_memory field_fits fieldOf.shape number value]

theorem postingsWithBlockMetas_memory (assembled : Assembled hash false inverted dictionary)
    (fits : InvertedFits inverted) (field term : String) :
    dictionary.postingsWithBlockMetas field term =
      (find inverted field term).map fun v =>
        { docIds := v.1
          freqs := v.2
          blockMetas := buildBlockMetasFromFreqs v.2
          roaring := if v.1.length > termRoaringThreshold then
            some (RoaringDocSet.fromSorted v.1) else none } := by
  cases found : find inverted field term with
  | none =>
    rw [TermDictionary.postingsWithBlockMetas]
    rcases assembled.absent found with gone | ⟨fieldPostings, present, gone⟩
    · rw [gone]
      rfl
    · rw [present, Option.bind_eq_bind, Option.bind_some, FieldPostings.lookupWithBlockMetas,
        FieldPostings.termRange, gone]
      rfl
  | some v =>
    obtain ⟨terms, fieldPostings, i, _, present, fieldOf, field_fits, number, value⟩ :=
      assembled.locate fits found
    rw [TermDictionary.postingsWithBlockMetas, present, Option.bind_eq_bind, Option.bind_some,
      lookupWithBlockMetas_memory field_fits fieldOf.shape number value]
    rfl

end Memory

theorem roaringSet_eq (assembled : Assembled hash diskEnabled inverted dictionary)
    (fits : InvertedFits inverted) (field term : String) :
    dictionary.roaringSet field term =
      (find inverted field term).bind fun v =>
        if v.1.length > termRoaringThreshold then some (RoaringDocSet.fromSorted v.1) else none := by
  cases found : find inverted field term with
  | none =>
    rw [TermDictionary.roaringSet]
    rcases assembled.absent found with gone | ⟨fieldPostings, present, gone⟩
    · rw [gone]
      rfl
    · rw [present, Option.bind_eq_bind, Option.bind_some, gone]
      rfl
  | some v =>
    obtain ⟨terms, fieldPostings, i, _, present, fieldOf, field_fits, number, value⟩ :=
      assembled.locate fits found
    simp only [TermDictionary.roaringSet, present, Option.bind_eq_bind, Option.bind_some, number,
      lookupRoaring_filled field_fits fieldOf.shape value]

theorem blockMetas_eq (assembled : Assembled hash diskEnabled inverted dictionary)
    (fits : InvertedFits inverted) (field term : String) :
    dictionary.blockMetas field term =
      if diskEnabled then none
      else (find inverted field term).map fun v => buildBlockMetasFromFreqs v.2 := by
  cases found : find inverted field term with
  | none =>
    rw [TermDictionary.blockMetas]
    rcases assembled.absent found with gone | ⟨fieldPostings, present, gone⟩
    · rw [gone]
      cases diskEnabled <;> rfl
    · rw [present, Option.bind_eq_bind, Option.bind_some, FieldPostings.lookupBlockMetas, gone]
      cases diskEnabled <;> rfl
  | some v =>
    obtain ⟨terms, fieldPostings, i, _, present, fieldOf, field_fits, number, value⟩ :=
      assembled.locate fits found
    rw [TermDictionary.blockMetas, present, Option.bind_eq_bind, Option.bind_some]
    cases diskEnabled with
    | false => exact lookupBlockMetas_memory field_fits fieldOf.shape number value
    | true =>
      rw [FieldPostings.lookupBlockMetas, number, fieldOf.shape.blockOffsets rfl]
      rfl

section Disk

/-- What a readable dictionary on disk holds for a term of its index. -/
theorem served (assembled : Assembled hash true inverted dictionary) (fits : InvertedFits inverted)
    {segment : PostingsSegment} (present : dictionary.postingsSegment = some segment)
    (readable : ∀ offset length, segment.device.reads offset length = true)
    (found : find inverted field term = some v) :
    ∃ fieldPostings i entry, dictionary.fields.get? field = some fieldPostings ∧
      fieldPostings.fst.get? term = some i ∧ IsPostings v.1 v.2 ∧ v.1 ≠ [] ∧
      v.1.length < 2 ^ 32 ∧ TermServed fieldPostings segment i v entry ∧
      ∀ [DecidableEq Digest], fieldPostings.p2Integrity ≠ none →
        P2Served hash fieldPostings segment dictionary.p2Integrity i v entry := by
  obtain ⟨terms, fieldPostings, i, _, at_field, fieldOf, field_fits, number, value⟩ :=
    assembled.locate fits found
  have member := List.mem_of_getElem? value
  obtain ⟨postings, nonempty⟩ := field_fits.postings v member
  obtain ⟨entry, served, attested⟩ := stored_served field_fits
    (fieldOf.stored rfl segment present) readable value
  have few := rowStart_add_le (row_getElem? Prod.fst value)
  have total := field_fits.total
  refine ⟨fieldPostings, i, entry, at_field, number, postings, nonempty, by omega, served, ?_⟩
  intro _ published
  exact attested dictionary.p2Integrity rfl assembled.digests published

theorem gone (assembled : Assembled hash true inverted dictionary)
    (found : find inverted field term = none) :
    dictionary.decodeFromSegment field term = none ∧ dictionary.decodeFromSegmentChecked field term = .ok none ∧
      dictionary.diskCursor field term = none ∧ dictionary.diskCursorChecked field term = .ok none := by
  unfold TermDictionary.decodeFromSegment TermDictionary.decodeFromSegmentChecked TermDictionary.diskCursor
    TermDictionary.diskCursorChecked
  rcases assembled.absent found with gone | ⟨fieldPostings, at_field, gone⟩
  · simp [gone]
  · simp [at_field, gone]

theorem decodeFromSegment_disk (assembled : Assembled hash true inverted dictionary)
    (fits : InvertedFits inverted) (payloads : PayloadsFit inverted)
    (intact : Readable dictionary.postingsSegment)
    (field term : String) :
    dictionary.decodeFromSegment field term = find inverted field term := by
  obtain ⟨segment, present, readable⟩ := intact
  cases found : find inverted field term with
  | none => exact (assembled.gone found).1
  | some v =>
    obtain ⟨fieldPostings, i, entry, at_field, number, postings, nonempty, _, served, _⟩ :=
      assembled.served fits present readable found
    have small := payloads field term v found
    have some_bytes := termPayload_ne_nil postings nonempty
    have read := (served.held small).read some_bytes readable
    have positive := List.length_pos_iff.mpr some_bytes
    have decoded : decodePostingsBlocked (termPayload v) v.1.length = .ok v := by
      rw [(encoded_term postings).2.1]
      exact decode_payload postings
    simp only [TermDictionary.decodeFromSegment, at_field, Option.bind_eq_bind, Option.bind_some,
      number, present, served.lossy, served.len small, served.postingsCount]
    rw [if_neg (by omega), read, Option.bind_some, decoded]
    rfl

theorem decodeFromSegmentChecked_disk (assembled : Assembled hash true inverted dictionary)
    (fits : InvertedFits inverted) (payloads : PayloadsFit inverted)
    (intact : Readable dictionary.postingsSegment)
    (field term : String) :
    dictionary.decodeFromSegmentChecked field term = .ok (find inverted field term) := by
  obtain ⟨segment, present, readable⟩ := intact
  cases found : find inverted field term with
  | none => exact (assembled.gone found).2.1
  | some v =>
    obtain ⟨fieldPostings, i, entry, at_field, number, postings, nonempty, _, served, _⟩ :=
      assembled.served fits present readable found
    have small := payloads field term v found
    have read := (served.held small).readChecked (termPayload_ne_nil postings nonempty) readable
    have decoded : decodePostingsPayloadChecked (termPayload v) v.1.length = .ok v := by
      rw [(encoded_term postings).2.1]
      exact decodeChecked_payload postings
    rw [TermDictionary.decodeFromSegmentChecked, at_field]
    dsimp only
    rw [number, present]
    simp only [served.checked, bind, Except.bind,
      validate_encoded postings nonempty (served.len small) served.postingsCount,
      served.len small, served.postingsCount, read, decoded]

theorem fresh_opened {segment : PostingsSegment} {base : Nat} (postings : IsPostings v.1 v.2)
    (held : segment.Holds base (termPayload v)) (small : (termPayload v).length < 2 ^ 32)
    (readable : ∀ offset length, segment.device.reads offset length = true) :
    Fresh v (DiskPostingsCursor.openWithDirectory segment base (termPayload v).length
        (termDirectory v) v.1.length) ∧
      Fresh v (DiskPostingsCursor.openRecomputed segment base (termPayload v).length
        (termDirectory v) v.1.length) := by
  obtain ⟨_, payload, directory⟩ := encoded_term postings
  rw [payload] at held small ⊢
  rw [directory]
  have start := fun blocksRead => opened_start held readable small blocksRead
  exact ⟨⟨(start 0).1, (start 0).2.1, (start 0).2.2⟩, ⟨(start _).1, (start _).2.1, (start _).2.2⟩⟩

theorem diskCursor_disk (assembled : Assembled hash true inverted dictionary)
    (fits : InvertedFits inverted) (payloads : PayloadsFit inverted)
    (intact : Readable dictionary.postingsSegment)
    (field term : String) :
    match find inverted field term with
    | none => dictionary.diskCursor field term = none
    | some v => ∃ cursor, dictionary.diskCursor field term = some cursor ∧ Fresh v cursor := by
  obtain ⟨segment, present, readable⟩ := intact
  cases found : find inverted field term with
  | none => exact (assembled.gone found).2.2.1
  | some v =>
    obtain ⟨fieldPostings, i, entry, at_field, number, postings, nonempty, _, served, _⟩ :=
      assembled.served fits present readable found
    have small := payloads field term v found
    have positive := List.length_pos_iff.mpr (termPayload_ne_nil postings nonempty)
    refine ⟨_, ?_, (fresh_opened postings (served.held small) small readable).1⟩
    simp only [TermDictionary.diskCursor, at_field, Option.bind_eq_bind, Option.bind_some,
      number, present, served.lossy, served.len small, served.postingsCount, served.directory]
    rw [if_neg (by omega)]

theorem diskCursorChecked_disk (assembled : Assembled hash true inverted dictionary)
    (fits : InvertedFits inverted) (payloads : PayloadsFit inverted)
    (intact : Readable dictionary.postingsSegment)
    (field term : String) :
    match find inverted field term with
    | none => dictionary.diskCursorChecked field term = .ok none
    | some v => ∃ cursor, dictionary.diskCursorChecked field term = .ok (some cursor) ∧
        Fresh v cursor := by
  obtain ⟨segment, present, readable⟩ := intact
  cases found : find inverted field term with
  | none => exact (assembled.gone found).2.2.2
  | some v =>
    obtain ⟨fieldPostings, i, entry, at_field, number, postings, nonempty, _, served, _⟩ :=
      assembled.served fits present readable found
    have small := payloads field term v found
    obtain ⟨_, payload, directory⟩ := encoded_term postings
    have held := served.held small
    rw [payload] at held
    have opened := openChecked_payload postings nonempty held readable
    rw [← payload, ← directory] at opened
    refine ⟨_, ?_, (fresh_opened postings (served.held small) small readable).2⟩
    rw [TermDictionary.diskCursorChecked, at_field]
    dsimp only
    rw [number, present]
    simp only [served.checked, bind, Except.bind,
      validate_encoded postings nonempty (served.len small) served.postingsCount,
      served.len small, served.postingsCount, opened, served.blockDirCount,
      DiskPostingsCursor.openRecomputed, DiskPostingsCursor.openWithDirectory,
      served.directory_checked, if_true]

theorem diskCursorP2Checked_disk [DecidableEq Digest]
    (assembled : Assembled hash true inverted dictionary)
    (fits : InvertedFits inverted) (payloads : PayloadsFit inverted)
    (intact : Readable dictionary.postingsSegment)
    {fieldPostings : FieldPostings} (at_field : dictionary.fields.get? field = some fieldPostings)
    (published : fieldPostings.p2Integrity ≠ none) (term : String) :
    match find inverted field term with
    | none => dictionary.diskCursorP2Checked hash field term = .ok none
    | some v => ∃ cursor, dictionary.diskCursorP2Checked hash field term = .ok (some cursor) ∧
        Fresh v cursor ∧ cursor.docFreq = v.1.length := by
  obtain ⟨segment, present, readable⟩ := intact
  cases found : find inverted field term with
  | none =>
    dsimp only
    rw [TermDictionary.diskCursorP2Checked, at_field]
    rcases assembled.absent found with gone | ⟨_, here, gone⟩
    · rw [gone] at at_field
      cases at_field
    · rw [at_field] at here
      cases here
      dsimp only
      rw [gone]
  | some v =>
    obtain ⟨_, i, entry, here, number, postings, nonempty, few, served, attested⟩ :=
      assembled.served fits present readable found
    have small := payloads field term v found
    rw [at_field] at here
    cases here
    have verified := attested published
    have below := (served.held small).below
    have offset_fits := segment.offset_fits
    have contained : segment.containsRange entry.postingsOffset (termPayload v).length = true := by
      simp only [PostingsSegment.containsRange, Bool.and_eq_true, decide_eq_true_eq]
      omega
    have blocks := termDirectory_length postings
    have blocks_few : ¬ (v.1.length + blockSize - 1) / blockSize ≥ 2 ^ 32 := by
      simp only [blockSize, forBlockSize]
      omega
    have directory := verified.directory_verified
    rw [blocks] at directory
    refine ⟨_, ?_, (fresh_opened postings (served.held small) small readable).1, rfl⟩
    rw [TermDictionary.diskCursorP2Checked, at_field]
    dsimp only
    rw [number, present]
    simp only [verified.entry_verified, bind, Except.bind,
      validate_encoded postings nonempty (served.len small) served.postingsCount,
      served.len small, served.postingsCount, contained, Bool.not_true, Bool.false_eq_true,
      if_false, blocks_few]
    rw [show blockSize = forBlockSize from rfl, directory]
    simp only [expectedShape_encoded postings nonempty small, Bool.not_true, Bool.false_eq_true,
      if_false]

end Disk

end Assembled

end Surch.Postings
