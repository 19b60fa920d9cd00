import Surch.Postings.Merging

/-! The checked readers never suspect a segment the encoder wrote: each bound they put on an entry,
a directory or a block is one that every encoded term meets. -/
namespace Surch.Postings
open Surch.Lib Surch.Codec

variable {Digest : Type} {hash : List UInt8 → Digest} {additions : List Addition}
  {dictionary : TermDictionary Digest} {field term : String} {v : TermPostings}

theorem Fresh.blocks_match {cursor : DiskPostingsCursor} (fresh : Fresh v cursor)
    (postings : IsPostings v.1 v.2) (b : Nat) (entry : BlockDirEntry)
    (here : cursor.directory[b]? = some entry) :
    { cursor with blockCursor := b }.decodedBlockMatchesDirectory entry (blockDocs v.1 b)
      (blockDocs v.2 b) = true := by
  have opened : Opened v.1 v.2 { cursor with blockCursor := b } :=
    ⟨fresh.opened.directory, fresh.opened.payloadLen, fresh.opened.fits, fresh.opened.holds,
      fresh.opened.readable⟩
  have inside : forBlockSize * b < v.1.length := by
    rw [directory_entry postings fresh.opened] at here
    by_contra outside
    rw [if_neg outside] at here
    cases here
  exact encoded_block_matches postings opened inside here

/- What the readers of a dictionary on disk say of a term that is present. -/
structure Unsuspected [DecidableEq Digest] (hash : List UInt8 → Digest)
    (dictionary : TermDictionary Digest) (field term : String) (v : TermPostings) : Prop where
  decoded : dictionary.decodeFromSegmentChecked field term = .ok (some v) ∧
    dictionary.decodeFromSegment field term = some v
  cursors : ∃ checked lossy, dictionary.diskCursorChecked field term = .ok (some checked) ∧
    dictionary.diskCursor field term = some lossy ∧
    (∀ targets, trace diskStep checked targets = trace diskStep lossy targets) ∧
    ∀ b entry, lossy.directory[b]? = some entry →
      { lossy with blockCursor := b }.decodedBlockMatchesDirectory entry (blockDocs v.1 b)
        (blockDocs v.2 b) = true
  attested : ∀ fieldPostings, dictionary.fields.get? field = some fieldPostings →
    fieldPostings.p2Integrity ≠ none →
    ∃ cursor, dictionary.diskCursorP2Checked hash field term = .ok (some cursor) ∧
      ∀ targets, ∀ status ∈ trace DiskPostingsCursor.advanceToWithStatus cursor targets,
        status ≠ .error
  dense : ∀ entry : TermEntry, entry.postingsLen = (termPayload v).length →
    entry.postingsCount = v.1.length → entry.validate = .ok ()
  shape : p2DirectoryHasExpectedShape (termDirectory v) v.1.length (termPayload v).length = true

theorem Serves.unsuspected [DecidableEq Digest] {inverted : Inverted}
    (serves : Serves hash true inverted dictionary) (found : find inverted field term = some v) :
    Unsuspected hash dictionary field term v := by
  have assembled := serves.assembled
  have fits := serves.fits
  have payloads := serves.payloads rfl
  have intact := serves.intact rfl
  have small := payloads field term v found
  obtain ⟨segment, present, readable⟩ := serves.intact rfl
  obtain ⟨_, _, _, _, _, postings, nonempty, _, _, _⟩ :=
    assembled.served fits present readable found
  have lossy := assembled.diskCursor_disk fits payloads intact field term
  have checked := assembled.diskCursorChecked_disk fits payloads intact field term
  rw [found] at lossy checked
  obtain ⟨lossyCursor, opened, fresh⟩ := lossy
  obtain ⟨checkedCursor, opened_checked, fresh_checked⟩ := checked
  refine ⟨⟨?_, ?_⟩, ⟨checkedCursor, lossyCursor, opened_checked, opened, ?_, ?_⟩, ?_, ?_, ?_⟩
  · rw [assembled.decodeFromSegmentChecked_disk fits payloads intact, found]
  · rw [assembled.decodeFromSegment_disk fits payloads intact, found]
  · intro targets
    rw [fresh_checked.run postings, fresh.run postings]
  · exact fresh.blocks_match postings
  · intro fieldPostings at_field published
    have attested := assembled.diskCursorP2Checked_disk fits payloads intact at_field published term
    rw [found] at attested
    obtain ⟨cursor, opened_attested, fresh_attested, -⟩ := attested
    exact ⟨cursor, opened_attested,
      no_error_run postings fresh_attested.opened fresh_attested.cached⟩
  · intro entry len count
    exact validate_encoded postings nonempty len count
  · exact expectedShape_encoded postings nonempty small

/-- No false corruption: every reader of a dictionary obtained from additions finds exactly the
terms that are present, and raises no error about any of them. -/
theorem no_false_corruption [DecidableEq Digest] (obtained : Obtained hash true additions dictionary)
    (field term : String) :
    (term ∉ dictionary.terms field →
      dictionary.decodeFromSegmentChecked field term = .ok none ∧
      dictionary.decodeFromSegment field term = none ∧
      dictionary.diskCursorChecked field term = .ok none ∧
      dictionary.diskCursor field term = none) ∧
    (term ∈ dictionary.terms field → ∃ v, Unsuspected hash dictionary field term v) := by
  have serves := obtained.serves
  have assembled := serves.assembled
  have payloads := serves.payloads rfl
  have intact := serves.intact rfl
  constructor
  · intro absent
    have missing : find (PostingsBuilder.new.addAll additions).invert field term = none := by
      rw [serves.mem_terms] at absent
      exact Option.eq_none_iff_forall_ne_some.mpr fun v found => absent ⟨v, found⟩
    have lossy := assembled.diskCursor_disk serves.fits payloads intact field term
    have checked := assembled.diskCursorChecked_disk serves.fits payloads intact field term
    rw [missing] at lossy checked
    refine ⟨?_, ?_, checked, lossy⟩
    · rw [assembled.decodeFromSegmentChecked_disk serves.fits payloads intact, missing]
    · rw [assembled.decodeFromSegment_disk serves.fits payloads intact, missing]
  · intro present
    obtain ⟨v, found⟩ := (serves.mem_terms field term).mp present
    exact ⟨v, serves.unsuspected found⟩

theorem range_fits {n first : Nat} (few : first + n ≤ 1000) (d : Fin n) : first + d.1 < 2 ^ 32 := by
  have := d.2
  omega

def consecutive (n first : Nat) (few : first + n ≤ 1000) : List Addition :=
  (List.finRange n).map fun d => ⟨"title", "rust", first + d.1, [0], range_fits few d⟩

theorem consecutive_parts : 0 + 20 ≤ 1000 ∧ 20 + 3 ≤ 1000 := by decide

def manyAdditions : List (List Addition) :=
  [consecutive 20 0 consecutive_parts.1,
    consecutive 3 20 consecutive_parts.2 ++ [⟨"title", "lean", 20, [1], range_fits consecutive_parts.2 0⟩]]

/- Two terms, one of them in both segments that are merged; the field is attested. -/
theorem no_false_corruption_merged :
    ∃ merged fieldPostings v, mergeTermDictionaries id .reliable (manyAdditions.map diskBuild) true
        p2IntegrityMaxBytes = some merged ∧
      merged.fields.get? "title" = some fieldPostings ∧ fieldPostings.p2Integrity.isSome = true ∧
      v.1.length = 23 ∧ Unsuspected id merged "title" "rust" v ∧
      merged.decodeFromSegmentChecked "title" "java" = .ok none := by
  have computed : (mergeTermDictionaries id .reliable (manyAdditions.map diskBuild) true
      p2IntegrityMaxBytes).map (fun merged => (merged.postingsSegment.isSome,
        ((merged.fields.get? "title").map fun fieldPostings => fieldPostings.p2Integrity.isSome),
        (merged.decodeFromSegment "title" "rust").map fun v => v.1.length, merged.terms "title")) =
      some (true, some true, some 23, ["lean", "rust"]) := by decide +kernel
  obtain ⟨merged, produced, values⟩ := Option.map_eq_some_iff.mp computed
  rw [Prod.mk.injEq, Prod.mk.injEq, Prod.mk.injEq] at values
  obtain ⟨present, published, length, terms⟩ := values
  have ascending : Ascending manyAdditions := by
    simp only [Ascending, manyAdditions, List.pairwise_pair, consecutive, List.mem_append,
      List.mem_map, List.mem_singleton]
    rintro _ ⟨d, -, rfl⟩ _ (⟨e, -, rfl⟩ | rfl) <;> dsimp only <;> omega
  have each : ∀ additions ∈ manyAdditions, Obtained id true additions (diskBuild additions) := by
    rw [manyAdditions, List.forall_mem_cons, List.forall_mem_singleton]
    exact ⟨diskBuild_obtained (by decide +kernel) (by decide +kernel),
      diskBuild_obtained (by decide +kernel) (by decide +kernel)⟩
  have obtained := diskMerge_obtained each ascending (by decide +kernel) produced present
  obtain ⟨fieldPostings, at_field, integrity⟩ := Option.map_eq_some_iff.mp published
  obtain ⟨v, unsuspected⟩ := (no_false_corruption obtained "title" "rust").2 (by simp [terms])
  refine ⟨merged, fieldPostings, v, produced, at_field, integrity, ?_, unsuspected,
    ((no_false_corruption obtained "title" "java").1 (by simp [terms])).1⟩
  rw [unsuspected.decoded.2] at length
  exact Option.some.inj length

theorem Overflows.checked_error {n : Nat} (overflows : Overflows n)
    (assembled : Assembled hash true (oneTerm field term (wideDocs n, wideFreqs n)) dictionary)
    (intact : Readable dictionary.postingsSegment) :
    ∃ e, dictionary.decodeFromSegmentChecked field term = .error e := by
  obtain ⟨segment, fieldPostings, i, entry, present, at_field, number, served, length, count⟩ :=
    overflows.served assembled intact
  have refused : ∃ e, entry.validate = .error e := by
    unfold TermEntry.validate
    split
    · split
      · exact ⟨_, rfl⟩
      · exact ⟨_, rfl⟩
    · rw [if_pos]
      · exact ⟨_, rfl⟩
      · right
        rw [count]
        simp only [maxPostingsPerPayloadByte, forBlockSize]
        omega
  obtain ⟨e, error⟩ := refused
  refine ⟨e, ?_⟩
  rw [TermDictionary.decodeFromSegmentChecked, at_field]
  dsimp only
  rw [number, present]
  simp only [served.checked, error, bind, Except.bind]

/-- A merge of two dictionaries that share a document, and a term whose payload passes `2 ^ 32`
bytes: the term is present and the checked reader reports an error. -/
theorem checked_readers_reject_overlap_and_width :
    (∃ merged, mergeTermDictionaries id .reliable [diskBuild firstGroup, diskBuild firstGroup] true
        p2IntegrityMaxBytes = some merged ∧
      Readable merged.postingsSegment ∧ "rust" ∈ merged.terms "title" ∧
      merged.decodeFromSegmentChecked "title" "rust" = .error .missingCoverage) ∧
    ∃ additions, Readable (diskBuild additions).postingsSegment ∧
      "rust" ∈ (diskBuild additions).terms "title" ∧
      ∃ e, (diskBuild additions).decodeFromSegmentChecked "title" "rust" = .error e := by
  constructor
  · have index : (PostingsBuilder.new.addAll firstGroup).invert =
        oneTerm "title" "rust" ([0], [1]) := by
      decide +kernel
    have size : (termPayload ([0], [1])).length = 2 := by decide +kernel
    have obtained : Obtained id true firstGroup (diskBuild firstGroup) :=
      oneTerm_obtained index (by decide) (by omega) _
    have serves := obtained.serves
    rw [index] at serves
    have each : ∀ s ∈ [(oneTerm "title" "rust" ([0], [1]), diskBuild firstGroup),
        (oneTerm "title" "rust" ([0], [1]), diskBuild firstGroup)], Served id s.1 s.2 := by
      rw [List.forall_mem_cons, List.forall_mem_singleton]
      exact ⟨serves.served, serves.served⟩
    have concat : mergeInverted [oneTerm "title" "rust" ([0], [1]), oneTerm "title" "rust" ([0], [1])] =
        oneTerm "title" "rust" ([0, 0], [1, 1]) := by
      decide +kernel
    have read : mergedFields [diskBuild firstGroup, diskBuild firstGroup] =
        some (oneTerm "title" "rust" ([0, 0], [1, 1])) :=
      (mergedFields_eq each).trans (congrArg some concat)
    refine ⟨_, mergeTermDictionaries_eq id .reliable _ true p2IntegrityMaxBytes read, ?_, ?_, ?_⟩
    · exact assemble_readable id true _ _ (by decide +kernel)
    · decide +kernel
    · decide +kernel
  · obtain ⟨n, overflows⟩ := exists_overflows
    have index := overflows.index "title" "rust" (by decide) (by decide)
    have close := overflows.close
    have intact : Readable (diskBuild (spell "title" "rust" (wideDocs n, wideFreqs n)
        overflows.postings.docs_fit)).postingsSegment :=
      oneTerm_readable id index true p2IntegrityMaxBytes
        (by rw [PostingsSegment.fileSizeLimit]; omega)
    have assembled : Assembled id true (oneTerm "title" "rust" (wideDocs n, wideFreqs n))
        (diskBuild (spell "title" "rust" (wideDocs n, wideFreqs n) overflows.postings.docs_fit)) := by
      rw [← index]
      exact buildWithLimit_assembled id .reliable _ true p2IntegrityMaxBytes
    refine ⟨_, intact, ?_, overflows.checked_error assembled intact⟩
    rw [assembled.terms_eq]
    simp [oneTerm, SortedMap.keys, SortedMap.singleton, SortedMap.get?]

end Surch.Postings
