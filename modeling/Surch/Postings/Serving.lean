import Surch.Postings.CursorRuns
import Surch.Postings.Stored

/-! Reading an assembled dictionary back. Within the capacity of its 32-bit tables every accessor
finds, for every term, the postings the dictionary was assembled from. -/
namespace Surch.Postings
open Surch.Lib Surch.Codec

/- What the 32-bit tables of a field can address. -/
structure FieldFits (terms : List TermPostings) : Prop where
  postings : ∀ v ∈ terms, IsPostings v.1 v.2 ∧ v.1 ≠ []
  total : (terms.map Prod.fst).flatten.length < 2 ^ 32

section Term

variable {v : TermPostings}

theorem encoded_term (postings : IsPostings v.1 v.2) :
    encodes v = true ∧ termPayload v = chunkPayload (postingsChunks v.1 v.2) ∧
      termDirectory v = chunkDirectory 0 (postingsChunks v.1 v.2) := by
  obtain ⟨output, encoded, payload, directory⟩ :=
    encodeWithDirectory_ok postings.aligned postings.increasing
  rw [encodes, termPayload, termDirectory, encoded]
  exact ⟨rfl, payload, directory⟩

theorem termPayload_ne_nil (postings : IsPostings v.1 v.2) (nonempty : v.1 ≠ []) :
    termPayload v ≠ [] := by
  rw [(encoded_term postings).2.1, ← List.length_pos_iff]
  have dense := payload_density postings
  have positive := List.length_pos_iff.mpr nonempty
  omega

theorem termDirectory_length (postings : IsPostings v.1 v.2) :
    (termDirectory v).length = (v.1.length + forBlockSize - 1) / forBlockSize := by
  rw [(encoded_term postings).2.2, chunkDirectory_length, postingsChunks_length postings.aligned]

theorem termDirectory_fits (postings : IsPostings v.1 v.2) : ∀ entry ∈ termDirectory v, DirFits entry := by
  intro entry member
  rw [(encoded_term postings).2.2] at member
  obtain ⟨b, found⟩ := List.mem_iff_getElem?.mp member
  rw [chunkDirectory_entry postings.aligned] at found
  split at found
  · rename_i inside
    cases found
    refine ⟨Nat.mod_lt _ (Nat.two_pow_pos 32), ?_, ?_⟩
    · rw [blockDocs_length]
      simp only [forBlockSize]
      omega
    · have last := blockDocs_getLastD v.1 b inside
      exact postings.docs_fit _ (List.mem_of_getElem? last.symm)
  · cases found

end Term

section Rows

variable {α : Type} {terms : List TermPostings} {i : Nat} {v : TermPostings}

theorem row_getElem? (f : TermPostings → List α) (here : terms[i]? = some v) :
    (terms.map f)[i]? = some (f v) := by
  rw [List.getElem?_map, here]
  rfl

/-- The 32-bit start of a row is its start as long as all rows fit. -/
theorem narrow_start {f : TermPostings → List α} (fits : (terms.map f).flatten.length < 2 ^ 32)
    (inside : i ≤ terms.length) :
    (narrow (rowStarts (terms.map f)))[i]? = some (rowStart (terms.map f) i) := by
  have below : rowStart (terms.map f) i ≤ (terms.map f).flatten.length := by
    rw [rowStart_eq_flatten]
    conv_rhs => rw [← List.take_append_drop i (terms.map f), List.flatten_append,
      List.length_append]
    omega
  rw [narrow, List.getElem?_map, rowStarts_getElem? (by rw [List.length_map]; exact inside),
    Option.map_some, Nat.mod_eq_of_lt (by omega)]

theorem slice_row (f : TermPostings → List α) (here : terms[i]? = some v) :
    slice (terms.map f).flatten (rowStart (terms.map f) i) (rowStart (terms.map f) (i + 1)) =
      some (f v) := by
  have row := row_getElem? f here
  have room := rowStart_add_le row
  have cut := flatten_slice row
  rw [rowStart_succ row, slice, if_pos ⟨Nat.le_add_right _ _, room⟩, Nat.add_sub_cancel_left, cut]

end Rows

namespace FieldFits

variable {terms : List TermPostings}

theorem aligned_starts (fits : FieldFits terms) (i : Nat) :
    rowStart (terms.map Prod.snd) i = rowStart (terms.map Prod.fst) i := by
  apply rowStart_congr
  rw [List.map_map, List.map_map]
  apply List.map_congr_left
  intro v member
  exact (fits.postings v member).1.aligned.symm

theorem freqs_total (fits : FieldFits terms) : (terms.map Prod.snd).flatten.length < 2 ^ 32 := by
  refine (flatten_length_le terms Prod.snd Prod.fst ?_).trans_lt fits.total
  intro v member
  exact (fits.postings v member).1.aligned.ge

theorem directory_total (fits : FieldFits terms) :
    (terms.map termDirectory).flatten.length < 2 ^ 32 := by
  refine (flatten_length_le terms termDirectory Prod.fst ?_).trans_lt fits.total
  intro v member
  obtain ⟨postings, nonempty⟩ := fits.postings v member
  have positive := List.length_pos_iff.mpr nonempty
  rw [termDirectory_length postings]
  simp only [forBlockSize]
  omega

theorem metas_total (fits : FieldFits terms) :
    (terms.map fun term => buildBlockMetasFromFreqs term.2).flatten.length < 2 ^ 32 := by
  refine (flatten_length_le terms _ Prod.fst ?_).trans_lt fits.total
  intro v member
  obtain ⟨postings, nonempty⟩ := fits.postings v member
  have positive := List.length_pos_iff.mpr nonempty
  rw [buildBlockMetasFromFreqs, List.length_map, blockSize, chunks_length forBlockSize_pos,
    ← postings.aligned]
  simp only [forBlockSize]
  omega

/-- Every term has a posting, so there are no more terms than postings. -/
theorem terms_few (fits : FieldFits terms) : terms.length < 2 ^ 32 := by
  have each := flatten_length_le terms (fun _ => [()]) Prod.fst (by
    intro v member
    exact List.length_pos_iff.mpr (fits.postings v member).2)
  have ones : (terms.map fun _ => [()]).flatten.length = terms.length := by
    simp
  have total := fits.total
  omega

theorem payload_ne_nil (fits : FieldFits terms) {i : Nat} {v : TermPostings}
    (here : terms[i]? = some v) : (filled true terms).fieldPayload ≠ [] := by
  have member := List.mem_of_getElem? here
  obtain ⟨postings, nonempty⟩ := fits.postings v member
  have some_left := termPayload_ne_nil postings nonempty
  intro empty
  exact some_left (List.flatten_eq_nil_iff.mp empty _ (List.mem_map.mpr ⟨v, member, rfl⟩))

end FieldFits

section Memory

variable {terms : List TermPostings} {field : FieldPostings} {term : String} {i : Nat}
  {v : TermPostings}

theorem termRange_memory (fits : FieldFits terms) (shape : FieldShape false terms field)
    (number : field.fst.get? term = some i) (here : terms[i]? = some v) :
    field.termRange term =
      some (i, rowStart (terms.map Prod.snd) i, rowStart (terms.map Prod.snd) (i + 1)) := by
  have inside := (List.getElem?_eq_some_iff.mp here).1
  have start := narrow_start (f := Prod.snd) fits.freqs_total (i := i) (by omega)
  have ending := narrow_start (f := Prod.snd) fits.freqs_total (i := i + 1) (by omega)
  have offsets : field.offsets = narrow (rowStarts (terms.map Prod.snd)) := (shape.resident rfl).1
  rw [FieldPostings.termRange, number, offsets]
  simp only [Option.bind_eq_bind, Option.bind_some, start, ending, Option.pure_def]

theorem slices_memory (fits : FieldFits terms) (shape : FieldShape false terms field)
    (here : terms[i]? = some v) :
    slice field.docIdsFlat (rowStart (terms.map Prod.snd) i)
        (rowStart (terms.map Prod.snd) (i + 1)) = some v.1 ∧
      slice field.freqsFlat (rowStart (terms.map Prod.snd) i)
        (rowStart (terms.map Prod.snd) (i + 1)) = some v.2 := by
  have docIds : field.docIdsFlat = (terms.map Prod.fst).flatten := shape.docIdsFlat
  have freqs : field.freqsFlat = (terms.map Prod.snd).flatten := shape.freqsFlat
  constructor
  · rw [docIds, fits.aligned_starts, fits.aligned_starts, slice_row Prod.fst here]
  · rw [freqs, slice_row Prod.snd here]

/-- A build in memory serves each term from its flat channels. -/
theorem lookup_memory (fits : FieldFits terms) (shape : FieldShape false terms field)
    (number : field.fst.get? term = some i) (here : terms[i]? = some v) :
    field.lookup term = some v := by
  obtain ⟨docIds, freqs⟩ := slices_memory fits shape here
  simp only [FieldPostings.lookup, termRange_memory fits shape number here, Option.bind_eq_bind,
    Option.bind_some, docIds, freqs, Option.pure_def]

theorem lookupBlockMetas_memory (fits : FieldFits terms) (shape : FieldShape false terms field)
    (number : field.fst.get? term = some i) (here : terms[i]? = some v) :
    field.lookupBlockMetas term = some (buildBlockMetasFromFreqs v.2) := by
  have inside := (List.getElem?_eq_some_iff.mp here).1
  have start := narrow_start fits.metas_total (i := i) (by omega)
  have ending := narrow_start fits.metas_total (i := i + 1) (by omega)
  have offsets : field.blockOffsets =
      narrow (rowStarts (terms.map fun term => buildBlockMetasFromFreqs term.2)) :=
    (shape.resident rfl).2
  have metas : field.blockMetasFlat =
      (terms.map fun term => buildBlockMetasFromFreqs term.2).flatten := shape.blockMetasFlat
  have row := slice_row (fun term => buildBlockMetasFromFreqs term.2) here
  simp only [FieldPostings.lookupBlockMetas, number, offsets, metas, Option.bind_eq_bind,
    Option.bind_some, start, ending, row]

/-- The set of a term is kept exactly when it is frequent. -/
theorem lookupRoaring_filled (fits : FieldFits terms) {diskEnabled : Bool}
    (shape : FieldShape diskEnabled terms field) (here : terms[i]? = some v) :
    field.lookupRoaring (i % 2 ^ 32) =
      if v.1.length > termRoaringThreshold then some (RoaringDocSet.fromSorted v.1) else none := by
  have few := fits.terms_few
  have inside := (List.getElem?_eq_some_iff.mp here).1
  have small : i % 2 ^ 32 = i := Nat.mod_eq_of_lt (by omega)
  -- an entry numbered `i` comes from term `i`
  have unique : ∀ entry ∈ field.roaring, entry.1 = i →
      entry = (i, RoaringDocSet.fromSorted v.1) ∧ v.1.length > termRoaringThreshold := by
    intro entry member numbered
    rw [shape.roaring] at member
    obtain ⟨listed, frequent⟩ := List.mem_filter.mp member
    obtain ⟨j, bound, value⟩ := List.mem_mapIdx.mp listed
    have same : j = i := by
      rw [← value] at numbered
      rw [← numbered]
      exact (Nat.mod_eq_of_lt (by omega)).symm
    subst same
    rw [List.getElem?_eq_getElem bound, Option.some.injEq] at here
    rw [← value] at frequent ⊢
    rw [here] at frequent ⊢
    exact ⟨by rw [small], of_decide_eq_true frequent⟩
  rw [FieldPostings.lookupRoaring, small]
  cases found : field.roaring.find? fun entry => entry.1 = i with
  | none =>
    by_cases frequent : v.1.length > termRoaringThreshold
    · have listed : (i, RoaringDocSet.fromSorted v.1) ∈ field.roaring := by
        rw [shape.roaring]
        refine List.mem_filter.mpr ⟨List.mem_mapIdx.mpr ⟨i, inside, ?_⟩,
          decide_eq_true frequent⟩
        rw [small, (List.getElem?_eq_some_iff.mp here).2]
      have missed := List.find?_eq_none.mp found _ listed
      simp at missed
    · rw [if_neg frequent]
      rfl
  | some entry =>
    have numbered := List.find?_some found
    obtain ⟨value, frequent⟩ := unique entry (List.mem_of_find?_eq_some found) (by simpa using numbered)
    rw [if_pos frequent, value]
    rfl

theorem lookupWithBlockMetas_memory (fits : FieldFits terms) (shape : FieldShape false terms field)
    (number : field.fst.get? term = some i) (here : terms[i]? = some v) :
    field.lookupWithBlockMetas term = some
      { docIds := v.1
        freqs := v.2
        blockMetas := buildBlockMetasFromFreqs v.2
        roaring := if v.1.length > termRoaringThreshold then
          some (RoaringDocSet.fromSorted v.1) else none } := by
  obtain ⟨docIds, freqs⟩ := slices_memory fits shape here
  have metas := lookupBlockMetas_memory fits shape number here
  have set := lookupRoaring_filled fits shape here
  simp only [FieldPostings.lookupBlockMetas, number, Option.bind_eq_bind, Option.bind_some] at metas
  simp only [FieldPostings.lookupWithBlockMetas, termRange_memory fits shape number here,
    Option.bind_eq_bind, Option.bind_some, docIds, freqs, set, Option.pure_def]
  cases start : field.blockOffsets[i]? with
  | none =>
    rw [start] at metas
    cases metas
  | some first =>
    cases ending : field.blockOffsets[i + 1]? with
    | none =>
      rw [start, ending] at metas
      cases metas
    | some last =>
      rw [start, ending] at metas
      simp only [Option.bind_some] at metas ⊢
      rw [metas]
      rfl

end Memory

section Disk

variable {Digest : Type} {terms : List TermPostings} {field : FieldPostings} {i : Nat}
  {v : TermPostings}

theorem mapM_map_some {α β : Type} {f : α → Option β} {xs : List α} {ys : List β}
    (collected : xs.mapM f = some ys) : xs.map f = ys.map some := by
  induction xs generalizing ys with
  | nil =>
    cases collected
    rfl
  | cons x xs ih =>
    rw [List.mapM_cons] at collected
    simp only [Option.bind_eq_bind, Option.bind_eq_some_iff, Option.pure_def,
      Option.some.injEq] at collected
    obtain ⟨y, first, rest, tail, rfl⟩ := collected
    rw [List.map_cons, List.map_cons, first, ih tail]

/- The entry of term `i`, with its block directory found at `locator`. The length of the payload
is narrowed, and an offset next to a length of zero is not rebased. -/
def servedEntry (terms : List TermPostings) (base i locator : Nat) (v : TermPostings) : TermEntry where
  postingsOffset :=
    if (termPayload v).length % 2 ^ 32 ≠ 0 then rowStart (terms.map termPayload) i + base
    else rowStart (terms.map termPayload) i
  postingsLen := (termPayload v).length % 2 ^ 32
  postingsCount := v.1.length
  blockDirOffset := locator
  blockDirCount := (termDirectory v).length

theorem descriptor_at (fits : FieldFits terms) (base : Nat) (here : terms[i]? = some v) :
    ((filled true terms).directoryChannels (some base)).segmentDescriptors[i]? =
      some (if (termPayload v).length % 2 ^ 32 ≠ 0 then rowStart (terms.map termPayload) i + base
        else rowStart (terms.map termPayload) i, (termPayload v).length % 2 ^ 32) := by
  have inside := (List.getElem?_eq_some_iff.mp here).1
  obtain ⟨postings, _⟩ := fits.postings v (List.mem_of_getElem? here)
  have descriptor : descriptorOf terms i =
      (rowStart (terms.map termPayload) i, (termPayload v).length % 2 ^ 32) := by
    rw [descriptorOf, here]
    simp only [(encoded_term postings).1, if_true]
  simp only [FieldChannels.directoryChannels, rebaseDescriptors, filled, List.getElem?_map,
    List.getElem?_range inside, Option.map_some, descriptor]
  split <;> rfl

theorem offsets_at (fits : FieldFits terms) (inside : i ≤ terms.length) (base : Option Nat) :
    ((filled true terms).directoryChannels base).offsets[i]? =
      some (rowStart (terms.map Prod.fst) i) :=
  narrow_start (f := Prod.fst) fits.total inside

theorem blockDirOffsets_at (fits : FieldFits terms) (inside : i ≤ terms.length)
    (base : Option Nat) :
    ((filled true terms).directoryChannels base).blockDirOffsets[i]? =
      some (rowStart (terms.map termDirectory) i) :=
  narrow_start (f := termDirectory) fits.directory_total inside

/-- The record written for a term, as long as its offset can be written. -/
theorem channels_termEntry (fits : FieldFits terms) (base blockDirBase : Nat)
    (here : terms[i]? = some v) {entry : TermEntry}
    (written : ((filled true terms).directoryChannels (some base)).termEntry blockDirBase i =
      some entry) :
    entry = servedEntry terms base i
        (blockDirBase + rowStart (terms.map termDirectory) i * blockDirEntryEncodedLen) v ∧
      entry.blockDirOffset < 2 ^ 64 := by
  have inside := (List.getElem?_eq_some_iff.mp here).1
  have docs := rowStart_succ (row_getElem? Prod.fst here)
  have blocks := rowStart_succ (row_getElem? termDirectory here)
  simp only [TermDirectoryChannels.termEntry, List.getD_eq_getElem?_getD,
    descriptor_at fits base here, offsets_at fits (i := i) (by omega) _,
    offsets_at fits (i := i + 1) (by omega) _, blockDirOffsets_at fits (i := i) (by omega) _,
    blockDirOffsets_at fits (i := i + 1) (by omega) _, Option.getD_some, docs, blocks] at written
  split at written
  · cases written
  split at written
  · cases written
  split at written
  · cases written
  rename_i small
  cases written
  refine ⟨?_, not_le.mp small⟩
  simp only [servedEntry, Nat.add_sub_cancel_left]

structure TermServed (field : FieldPostings) (segment : PostingsSegment) (i : Nat)
    (v : TermPostings) (entry : TermEntry) : Prop where
  lossy : field.termEntry i (some segment) = some entry
  checked : field.termEntryChecked i (some segment) = .ok entry
  held : (termPayload v).length < 2 ^ 32 → segment.Holds entry.postingsOffset (termPayload v)
  postingsLen : entry.postingsLen = (termPayload v).length % 2 ^ 32
  postingsCount : entry.postingsCount = v.1.length
  blockDirCount : entry.blockDirCount = (termDirectory v).length
  directory : field.blockDirectoryEntries entry (some segment) = some (termDirectory v)
  directory_checked :
    field.blockDirectoryEntriesChecked entry (some segment) = .ok (some (termDirectory v))

theorem TermServed.len {segment : PostingsSegment} {entry : TermEntry}
    (served : TermServed field segment i v entry) (small : (termPayload v).length < 2 ^ 32) :
    entry.postingsLen = (termPayload v).length := by
  rw [served.postingsLen, Nat.mod_eq_of_lt small]

theorem payload_held {segment : PostingsSegment} {base : Nat}
    (held : segment.Holds base (filled true terms).fieldPayload) (here : terms[i]? = some v) :
    segment.Holds (rowStart (terms.map termPayload) i + base) (termPayload v) := by
  have row := row_getElem? termPayload here
  rw [filled, flatten_split row] at held
  have inner := held.inner
  rw [← rowStart_eq_flatten, Nat.add_comm] at inner
  exact inner

/-- A payload that fits is found at the offset of its entry. -/
theorem servedEntry_held (fits : FieldFits terms) {segment : PostingsSegment} {base : Nat}
    (held : segment.Holds base (filled true terms).fieldPayload) (here : terms[i]? = some v)
    (locator : Nat) (small : (termPayload v).length < 2 ^ 32) :
    segment.Holds (servedEntry terms base i locator v).postingsOffset (termPayload v) := by
  obtain ⟨postings, nonempty⟩ := fits.postings v (List.mem_of_getElem? here)
  have positive := List.length_pos_iff.mpr (termPayload_ne_nil postings nonempty)
  rw [servedEntry, Nat.mod_eq_of_lt small]
  dsimp only
  rw [if_pos (by omega)]
  exact payload_held held here

theorem directory_bytes_small (fits : FieldFits terms) (here : terms[i]? = some v) :
    0 < (termDirectory v).length ∧
      (termDirectory v).length * blockDirEntryEncodedLen + 8192 < 2 ^ 32 := by
  have member := List.mem_of_getElem? here
  obtain ⟨postings, nonempty⟩ := fits.postings v member
  have positive := List.length_pos_iff.mpr nonempty
  have total := fits.total
  have row := rowStart_add_le (row_getElem? Prod.fst here)
  rw [termDirectory_length postings]
  simp only [forBlockSize, blockDirEntryEncodedLen]
  omega

theorem served_resident (fits : FieldFits terms) {segment : PostingsSegment} {base : Nat}
    (held : segment.Holds base (filled true terms).fieldPayload) (here : terms[i]? = some v)
    (directory : field.termEntriesDirectory = none)
    (descriptors : field.segmentDescriptors =
      ((filled true terms).directoryChannels (some base)).segmentDescriptors)
    (offsets : field.offsets = ((filled true terms).directoryChannels (some base)).offsets)
    (blocks : field.blockDirectory =
      ((filled true terms).directoryChannels (some base)).blockDirectory)
    (blockOffsets : field.blockDirOffsets =
      ((filled true terms).directoryChannels (some base)).blockDirOffsets) :
    TermServed field segment i v
      (servedEntry terms base i (rowStart (terms.map termDirectory) i) v) := by
  have inside := (List.getElem?_eq_some_iff.mp here).1
  have member := List.mem_of_getElem? here
  have docs := rowStart_succ (row_getElem? Prod.fst here)
  have docs_room := rowStart_add_le (row_getElem? Prod.fst here)
  have blocks_succ := rowStart_succ (row_getElem? termDirectory here)
  have blocks_room := rowStart_add_le (row_getElem? termDirectory here)
  have total := fits.total
  have blocks_total := fits.directory_total
  obtain ⟨some_blocks, _⟩ := directory_bytes_small fits here
  have entry : field.residentEntry i =
      some (servedEntry terms base i (rowStart (terms.map termDirectory) i) v) := by
    simp only [FieldPostings.residentEntry, FieldPostings.residentBlockDir, descriptors, offsets,
      blockOffsets, descriptor_at fits base here, offsets_at fits (i := i) (by omega) _,
      offsets_at fits (i := i + 1) (by omega) _, blockDirOffsets_at fits (i := i) (by omega) _,
      blockDirOffsets_at fits (i := i + 1) (by omega) _, Option.bind_eq_bind, Option.bind_some,
      docs, blocks_succ, Nat.add_sub_cancel_left, Option.pure_def, servedEntry]
    rw [Nat.mod_eq_of_lt (a := v.1.length) (by omega)]
  have row : slice field.blockDirectory (rowStart (terms.map termDirectory) i)
      (rowStart (terms.map termDirectory) i + (termDirectory v).length) =
        some (termDirectory v) := by
    have cut := slice_row termDirectory here
    rw [blocks_succ] at cut
    rw [blocks]
    exact cut
  have count : (servedEntry terms base i (rowStart (terms.map termDirectory) i) v).blockDirCount =
      (termDirectory v).length := rfl
  have locator : (servedEntry terms base i (rowStart (terms.map termDirectory) i) v).blockDirOffset =
      rowStart (terms.map termDirectory) i := rfl
  refine ⟨?_, ?_, servedEntry_held fits held here _, rfl, rfl, rfl, ?_, ?_⟩
  · rw [FieldPostings.termEntry, directory, entry]
  · rw [FieldPostings.termEntryChecked, directory, entry]
  · rw [FieldPostings.blockDirectoryEntries, directory, locator, count, if_neg (by omega)]
    dsimp only
    rw [if_neg (by omega), row]
  · rw [FieldPostings.blockDirectoryEntriesChecked, directory, locator, count, if_neg (by omega)]
    dsimp only
    rw [if_neg (by omega), row]

theorem records_at {β : Type} {f : Nat → Option β} {n : Nat} {ys : List β}
    (collected : (List.range n).mapM f = some ys) (inside : i < n) :
    ∃ y, f i = some y ∧ ys[i]? = some y := by
  have listed := congrArg (fun l => l[i]?) (mapM_map_some collected)
  simp only [List.getElem?_map, List.getElem?_range inside, Option.map_some] at listed
  cases found : ys[i]? with
  | none =>
    rw [found] at listed
    cases listed
  | some y =>
    rw [found, Option.map_some, Option.some.injEq] at listed
    exact ⟨y, listed, rfl⟩

/-- One record inside the packed table. -/
theorem entry_split {entries : List TermEntry} {entry : TermEntry}
    (here : entries[i]? = some entry) :
    ∃ before after, entries.flatMap encodeTermEntry = before ++ encodeTermEntry entry ++ after ∧
      before.length = i * termEntryEncodedLen := by
  have row : (entries.map encodeTermEntry)[i]? = some (encodeTermEntry entry) := by
    rw [List.getElem?_map, here]
    rfl
  have inside := (List.getElem?_eq_some_iff.mp here).1
  refine ⟨_, _, by rw [List.flatMap_def, flatten_split row], ?_⟩
  rw [← List.map_take, ← List.flatMap_def, encodedEntries_length, List.length_take,
    Nat.min_eq_left (by omega)]

theorem entry_held {segment : PostingsSegment} {entriesBase : Nat} {entries : List TermEntry}
    (held : segment.Holds entriesBase (entries.flatMap encodeTermEntry)) {entry : TermEntry}
    (here : entries[i]? = some entry) :
    segment.Holds (entriesBase + i * termEntryEncodedLen) (encodeTermEntry entry) := by
  obtain ⟨before, after, table, length⟩ := entry_split here
  rw [table] at held
  rw [← length]
  exact held.inner

/-- The bytes of one term's blocks inside the packed directory. -/
theorem directory_held {segment : PostingsSegment} {blockDirBase : Nat}
    (held : segment.Holds blockDirBase
      ((terms.map termDirectory).flatten.flatMap encodeBlockDirEntry))
    (here : terms[i]? = some v) :
    segment.Holds (blockDirBase + rowStart (terms.map termDirectory) i * blockDirEntryEncodedLen)
        ((termDirectory v).flatMap encodeBlockDirEntry) := by
  rw [flatten_split (row_getElem? termDirectory here), List.flatMap_append,
    List.flatMap_append] at held
  have inner := held.inner
  rw [encodedDirectory_length, ← rowStart_eq_flatten] at inner
  exact inner

theorem served_spilled (fits : FieldFits terms) {segment : PostingsSegment}
    (readable : ∀ offset length, segment.device.reads offset length = true) {base : Nat}
    (held : segment.Holds base (filled true terms).fieldPayload) (here : terms[i]? = some v)
    {blockDirBase entriesBase : Nat} {entries : List TermEntry}
    (directory : field.termEntriesDirectory =
      some (entriesBase, ((filled true terms).directoryChannels (some base)).segmentDescriptors.length))
    (records : (List.range
        ((filled true terms).directoryChannels (some base)).segmentDescriptors.length).mapM
      (((filled true terms).directoryChannels (some base)).termEntry blockDirBase) = some entries)
    (blocks_held : segment.Holds blockDirBase
      (((filled true terms).directoryChannels (some base)).blockDirectory.flatMap
        encodeBlockDirEntry))
    (entries_held : segment.Holds entriesBase (entries.flatMap encodeTermEntry)) :
    entries[i]? = some (servedEntry terms base i
        (blockDirBase + rowStart (terms.map termDirectory) i * blockDirEntryEncodedLen) v) ∧
      (servedEntry terms base i
        (blockDirBase + rowStart (terms.map termDirectory) i * blockDirEntryEncodedLen) v).Fits ∧
      TermServed field segment i v (servedEntry terms base i
        (blockDirBase + rowStart (terms.map termDirectory) i * blockDirEntryEncodedLen) v) := by
  have inside := (List.getElem?_eq_some_iff.mp here).1
  have member := List.mem_of_getElem? here
  obtain ⟨postings, nonempty⟩ := fits.postings v member
  have size : ((filled true terms).directoryChannels (some base)).segmentDescriptors.length =
      terms.length := by
    simp [FieldChannels.directoryChannels, rebaseDescriptors, filled]
  rw [size] at records directory
  obtain ⟨entry, written, listed⟩ := records_at records inside
  obtain ⟨rfl, small⟩ := channels_termEntry fits base blockDirBase here written
  obtain ⟨some_blocks, few_blocks⟩ := directory_bytes_small fits here
  have fits_segment := segment.offset_fits
  have payload := payload_held held here
  have payload_below := payload.below
  have row := rowStart_add_le (row_getElem? Prod.fst here)
  have total := fits.total
  have blocks_row := rowStart_add_le (row_getElem? termDirectory here)
  have blocks_total := fits.directory_total
  have record := entry_held entries_held listed
  have record_below := record.below
  rw [encodeTermEntry_length] at record_below
  have run := directory_held blocks_held here
  have run_below := run.below
  have run_length := encodedDirectory_length (termDirectory v)
  have record_ne : encodeTermEntry (servedEntry terms base i
      (blockDirBase + rowStart (terms.map termDirectory) i * blockDirEntryEncodedLen) v) ≠ [] := by
    rw [← List.length_pos_iff, encodeTermEntry_length]
    decide
  have run_ne : (termDirectory v).flatMap encodeBlockDirEntry ≠ [] := by
    rw [← List.length_pos_iff, run_length]
    exact Nat.mul_pos some_blocks (by decide)
  have entry_fits : (servedEntry terms base i
      (blockDirBase + rowStart (terms.map termDirectory) i * blockDirEntryEncodedLen) v).Fits := by
    refine ⟨?_, Nat.mod_lt _ (Nat.two_pow_pos 32), ?_, small, ?_⟩ <;> simp only [servedEntry]
    · split <;> omega
    · omega
    · omega
  have count : (servedEntry terms base i (blockDirBase +
      rowStart (terms.map termDirectory) i * blockDirEntryEncodedLen) v).blockDirCount =
      (termDirectory v).length := rfl
  have locator : (servedEntry terms base i (blockDirBase +
      rowStart (terms.map termDirectory) i * blockDirEntryEncodedLen) v).blockDirOffset =
      blockDirBase + rowStart (terms.map termDirectory) i * blockDirEntryEncodedLen := rfl
  have decoded := decode_encodeBlockDirEntries (termDirectory v) (termDirectory_fits postings)
  have read_record := record.read record_ne readable
  have checked_record := record.readChecked record_ne readable
  have read_run := run.read run_ne readable
  have checked_run := run.readChecked run_ne readable
  rw [encodeTermEntry_length] at read_record checked_record
  rw [run_length] at read_run checked_run
  refine ⟨listed, entry_fits, ?_, ?_, servedEntry_held fits held here _, rfl, rfl, rfl, ?_, ?_⟩
  · rw [FieldPostings.termEntry, directory]
    dsimp only
    rw [if_neg (by omega), Nat.mod_eq_of_lt (by omega)]
    simp only [Option.bind_eq_bind, Option.bind_some, read_record,
      decode_encodeTermEntry entry_fits]
  · rw [FieldPostings.termEntryChecked, directory]
    dsimp only
    rw [if_neg (by omega), if_neg (by omega), checked_record]
    simp only [decode_encodeTermEntry entry_fits]
  · rw [FieldPostings.blockDirectoryEntries, directory, locator, count, if_neg (by omega)]
    dsimp only
    rw [if_neg (by omega)]
    simp only [Option.bind_eq_bind, Option.bind_some, read_run, decoded]
  · rw [FieldPostings.blockDirectoryEntriesChecked, directory, locator, count, if_neg (by omega)]
    dsimp only
    rw [if_neg (by omega), checked_run]
    simp only [decoded]

end Disk

end Surch.Postings
