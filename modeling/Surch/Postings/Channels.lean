import Surch.Codec.Directory
import Surch.Lib.Csr
import Surch.Postings.Cursor
import Surch.Postings.Inversion
import Surch.Postings.Roaring

/-! The per-field channels a dictionary is assembled from. A build fills them from its settled
posting lists, a merge from decoded and concatenated lists; both leave the same channels. -/
namespace Surch.Postings
open Surch.Lib Surch.Codec

structure BlockMeta where
  maxTermFreq : Nat
deriving DecidableEq, Repr

def termRoaringThreshold : Nat := 4096

/- `iter().max().unwrap_or(0)`. -/
def maxFreq (freqs : List Nat) : Nat := freqs.foldl max 0

def buildBlockMetas (postings : List Posting) : List BlockMeta :=
  (chunks blockSize postings).map fun chunk => ⟨maxFreq (chunk.map Posting.freq)⟩

def buildBlockMetasFromFreqs (freqs : List Nat) : List BlockMeta :=
  (chunks blockSize freqs).map fun chunk => ⟨maxFreq chunk⟩

@[ext] structure FieldChannels where
  docIdsFlat : List Nat
  freqsFlat : List Nat
  postingsCounts : List Nat
  blockMetasFlat : List BlockMeta
  offsets : List Nat
  blockOffsets : List Nat
  roaring : List (Nat × RoaringDocSet)
  segmentDescriptors : List (Nat × Nat)
  fieldPayload : List UInt8
  blockDirectoryFlat : List BlockDirEntry
  blockDirOffsets : List Nat
  postingsSkippedTerms : Nat
  nextTermIdx : Nat
deriving DecidableEq, Repr

namespace FieldChannels

/- `block_offsets` is dead on disk and `block_dir_offsets` in memory; neither is started there. -/
def new (diskEnabled : Bool) : FieldChannels where
  docIdsFlat := []
  freqsFlat := []
  postingsCounts := []
  blockMetasFlat := []
  offsets := [0]
  blockOffsets := if diskEnabled then [] else [0]
  roaring := []
  segmentDescriptors := []
  fieldPayload := []
  blockDirectoryFlat := []
  blockDirOffsets := if diskEnabled then [0] else []
  postingsSkippedTerms := 0
  nextTermIdx := 0

/- A term whose encoding is refused is left with the sentinel descriptor. -/
def encodeAndStore (channels : FieldChannels) (diskEnabled : Bool) (docIds freqs : List Nat) :
    FieldChannels :=
  match encodePostingsBlockedWithDirectory docIds freqs with
  | .ok encoded =>
    { channels with
      blockDirectoryFlat :=
        if diskEnabled then channels.blockDirectoryFlat ++ encoded.directory
        else channels.blockDirectoryFlat
      fieldPayload := channels.fieldPayload ++ encoded.payload
      segmentDescriptors := channels.segmentDescriptors ++
        [(channels.fieldPayload.length, encoded.payload.length % 2 ^ 32)] }
  | .error _ =>
    { channels with
      segmentDescriptors := channels.segmentDescriptors ++ [(0, 0)]
      postingsSkippedTerms := channels.postingsSkippedTerms + 1 }

def pushTerm (channels : FieldChannels) (diskEnabled : Bool) (docIds freqs : List Nat) :
    FieldChannels :=
  let termIdx := channels.nextTermIdx
  let roaring :=
    if docIds.length > termRoaringThreshold then
      channels.roaring ++ [(termIdx, RoaringDocSet.fromSorted docIds)]
    else channels.roaring
  let numbered := { channels with roaring, nextTermIdx := (termIdx + 1) % 2 ^ 32 }
  if diskEnabled then
    let offset := (channels.offsets.getLastD 0 + docIds.length % 2 ^ 32) % 2 ^ 32
    let stored := { numbered with offsets := channels.offsets ++ [offset] }.encodeAndStore
      diskEnabled docIds freqs
    { stored with
      blockDirOffsets := stored.blockDirOffsets ++ [stored.blockDirectoryFlat.length % 2 ^ 32] }
  else
    let blockMetasFlat := channels.blockMetasFlat ++ buildBlockMetasFromFreqs freqs
    let freqsFlat := channels.freqsFlat ++ freqs
    { numbered with
      postingsCounts := channels.postingsCounts ++ [docIds.length % 2 ^ 32]
      blockMetasFlat
      blockOffsets := channels.blockOffsets ++ [blockMetasFlat.length % 2 ^ 32]
      docIdsFlat := channels.docIdsFlat ++ docIds
      freqsFlat
      offsets := channels.offsets ++ [freqsFlat.length % 2 ^ 32] }.encodeAndStore
      diskEnabled docIds freqs

/- One iteration of the per-term loop of a build. In memory the codec is given the tails just
pushed to the flat channels. -/
def pushPostings (channels : FieldChannels) (diskEnabled : Bool) (termPostings : List Posting) :
    FieldChannels :=
  let idx := channels.nextTermIdx
  let numbered := { channels with nextTermIdx := (idx + 1) % 2 ^ 32 }
  if diskEnabled then
    let termDocIds := termPostings.map Posting.docId
    let termFreqs := termPostings.map Posting.freq
    let roaring :=
      if termPostings.length > termRoaringThreshold then
        channels.roaring ++ [(idx, RoaringDocSet.fromSorted termDocIds)]
      else channels.roaring
    let offset := (channels.offsets.getLastD 0 + termDocIds.length % 2 ^ 32) % 2 ^ 32
    let stored := { numbered with roaring, offsets := channels.offsets ++ [offset] }.encodeAndStore
      diskEnabled termDocIds termFreqs
    { stored with
      blockDirOffsets := stored.blockDirOffsets ++ [stored.blockDirectoryFlat.length % 2 ^ 32] }
  else
    let blockMetasFlat := channels.blockMetasFlat ++ buildBlockMetas termPostings
    let docIdsStart := channels.docIdsFlat.length
    let docIdsFlat := channels.docIdsFlat ++ termPostings.map Posting.docId
    let roaring :=
      if termPostings.length > termRoaringThreshold then
        channels.roaring ++ [(idx, RoaringDocSet.fromSorted (docIdsFlat.drop docIdsStart))]
      else channels.roaring
    let freqsStart := channels.freqsFlat.length
    let freqsFlat := channels.freqsFlat ++ termPostings.map Posting.freq
    { numbered with
      postingsCounts := channels.postingsCounts ++ [termPostings.length % 2 ^ 32]
      blockMetasFlat
      blockOffsets := channels.blockOffsets ++ [blockMetasFlat.length % 2 ^ 32]
      docIdsFlat
      roaring
      freqsFlat
      offsets := channels.offsets ++ [freqsFlat.length % 2 ^ 32] }.encodeAndStore
      diskEnabled (docIdsFlat.drop docIdsStart) (freqsFlat.drop freqsStart)

end FieldChannels

theorem buildBlockMetas_eq (postings : List Posting) :
    buildBlockMetas postings = buildBlockMetasFromFreqs (postings.map Posting.freq) := by
  rw [buildBlockMetas, buildBlockMetasFromFreqs, blockSize, chunks_map forBlockSize_pos,
    List.map_map]
  rfl

theorem pushPostings_eq_pushTerm (channels : FieldChannels) (diskEnabled : Bool)
    (postings : List Posting) :
    channels.pushPostings diskEnabled postings =
      channels.pushTerm diskEnabled (postings.map Posting.docId) (postings.map Posting.freq) := by
  cases diskEnabled with
  | true => simp only [FieldChannels.pushPostings, FieldChannels.pushTerm, List.length_map, if_true]
  | false =>
    simp only [FieldChannels.pushPostings, FieldChannels.pushTerm, List.length_map, if_false,
      Bool.false_eq_true, List.drop_left, buildBlockMetas_eq]

section Filled

def termPayload (term : TermPostings) : List UInt8 :=
  match encodePostingsBlockedWithDirectory term.1 term.2 with
  | .ok encoded => encoded.payload
  | .error _ => []

def termDirectory (term : TermPostings) : List BlockDirEntry :=
  match encodePostingsBlockedWithDirectory term.1 term.2 with
  | .ok encoded => encoded.directory
  | .error _ => []

def encodes (term : TermPostings) : Bool :=
  (encodePostingsBlockedWithDirectory term.1 term.2).toOption.isSome

def descriptorOf (terms : List TermPostings) (i : Nat) : Nat × Nat :=
  match terms[i]? with
  | none => (0, 0)
  | some term =>
    if encodes term then
      (rowStart (terms.map termPayload) i, (termPayload term).length % 2 ^ 32)
    else (0, 0)

def narrow (positions : List Nat) : List Nat := positions.map (· % 2 ^ 32)

def filled (diskEnabled : Bool) (terms : List TermPostings) : FieldChannels where
  docIdsFlat := if diskEnabled then [] else (terms.map Prod.fst).flatten
  freqsFlat := if diskEnabled then [] else (terms.map Prod.snd).flatten
  postingsCounts := if diskEnabled then [] else terms.map fun term => term.1.length % 2 ^ 32
  blockMetasFlat :=
    if diskEnabled then [] else (terms.map fun term => buildBlockMetasFromFreqs term.2).flatten
  offsets := narrow (rowStarts (terms.map fun term => if diskEnabled then term.1 else term.2))
  blockOffsets :=
    if diskEnabled then []
    else narrow (rowStarts (terms.map fun term => buildBlockMetasFromFreqs term.2))
  roaring := (terms.mapIdx fun i term => (i % 2 ^ 32, RoaringDocSet.fromSorted term.1)).filter
    fun entry => entry.2.len > termRoaringThreshold
  segmentDescriptors := (List.range terms.length).map (descriptorOf terms)
  fieldPayload := (terms.map termPayload).flatten
  blockDirectoryFlat := if diskEnabled then (terms.map termDirectory).flatten else []
  blockDirOffsets := if diskEnabled then narrow (rowStarts (terms.map termDirectory)) else []
  postingsSkippedTerms := terms.countP fun term => !encodes term
  nextTermIdx := terms.length % 2 ^ 32

theorem descriptorOf_append_of_lt {terms : List TermPostings} (more : List TermPostings) {i : Nat}
    (inside : i < terms.length) : descriptorOf (terms ++ more) i = descriptorOf terms i := by
  rw [descriptorOf, descriptorOf, List.getElem?_append_left inside, List.map_append,
    rowStart_append_of_le _ (by rw [List.length_map]; omega)]

theorem descriptors_append_singleton (terms : List TermPostings) (term : TermPostings) :
    (List.range (terms ++ [term]).length).map (descriptorOf (terms ++ [term])) =
      (List.range terms.length).map (descriptorOf terms) ++
        [if encodes term then
          ((terms.map termPayload).flatten.length, (termPayload term).length % 2 ^ 32)
        else (0, 0)] := by
  rw [List.length_append, List.length_singleton, List.range_succ, List.map_append,
    List.map_singleton]
  congr 1
  · apply List.map_congr_left
    intro i member
    exact descriptorOf_append_of_lt [term] (List.mem_range.mp member)
  · rw [descriptorOf, List.getElem?_append_right le_rfl, Nat.sub_self, List.map_append,
      rowStart_append_of_le _ (by rw [List.length_map])]
    have whole := rowStart_length (terms.map termPayload)
    rw [List.length_map] at whole
    rw [whole]
    rfl

@[simp] theorem narrow_append (xs ys : List Nat) : narrow (xs ++ ys) = narrow xs ++ narrow ys :=
  List.map_append

theorem encodeAndStore_eq (channels : FieldChannels) (diskEnabled : Bool) (term : TermPostings) :
    channels.encodeAndStore diskEnabled term.1 term.2 =
      { channels with
        blockDirectoryFlat :=
          channels.blockDirectoryFlat ++ if diskEnabled then termDirectory term else []
        fieldPayload := channels.fieldPayload ++ termPayload term
        segmentDescriptors := channels.segmentDescriptors ++
          [if encodes term then
            (channels.fieldPayload.length, (termPayload term).length % 2 ^ 32)
          else (0, 0)]
        postingsSkippedTerms := channels.postingsSkippedTerms + if encodes term then 0 else 1 } := by
  rw [FieldChannels.encodeAndStore, termDirectory, termPayload, encodes]
  cases encodePostingsBlockedWithDirectory term.1 term.2 with
  | ok output => cases diskEnabled <;> simp [Except.toOption]
  | error e => cases diskEnabled <;> simp [Except.toOption]

theorem narrow_rowStarts_getLastD {α : Type} (rows : List (List α)) :
    (narrow (rowStarts rows)).getLastD 0 = rows.flatten.length % 2 ^ 32 := by
  rw [List.getLastD_eq_getLast?, List.getLast?_eq_getElem?, narrow, List.length_map,
    rowStarts_length, Nat.add_sub_cancel, List.getElem?_map, rowStarts_getElem? le_rfl,
    rowStart_length]
  rfl

theorem narrow_rowStarts_append {α : Type} (rows : List (List α)) (row : List α) :
    narrow (rowStarts (rows ++ [row])) =
      narrow (rowStarts rows) ++ [(rows.flatten.length + row.length) % 2 ^ 32] := by
  rw [rowStarts_append_singleton, narrow, List.map_append]
  rfl

theorem roaring_append_singleton (terms : List TermPostings) (term : TermPostings) :
    (filled true (terms ++ [term])).roaring =
      if term.1.length > termRoaringThreshold then
        (filled true terms).roaring ++
          [(terms.length % 2 ^ 32, RoaringDocSet.fromSorted term.1)]
      else (filled true terms).roaring := by
  simp only [filled, List.mapIdx_append, List.filter_append]
  by_cases frequent : term.1.length > termRoaringThreshold <;>
    simp [frequent, RoaringDocSet.fromSorted]

theorem pushTerm_filled (diskEnabled : Bool) (terms : List TermPostings) (term : TermPostings) :
    (filled diskEnabled terms).pushTerm diskEnabled term.1 term.2 =
      filled diskEnabled (terms ++ [term]) := by
  have roaring := roaring_append_singleton terms term
  have skipped : (terms ++ [term]).countP (fun term => !encodes term) =
      terms.countP (fun term => !encodes term) + if encodes term then 0 else 1 := by
    rw [List.countP_append, List.countP_singleton]
    cases encodes term <;> rfl
  cases diskEnabled with
  | true =>
    rw [FieldChannels.pushTerm, if_pos rfl]
    simp only [encodeAndStore_eq]
    ext1
    case roaring => exact roaring.symm
    case segmentDescriptors => exact (descriptors_append_singleton terms term).symm
    case postingsSkippedTerms => exact skipped.symm
    case offsets =>
      simp only [filled, if_true, List.map_append, List.map_singleton, narrow_rowStarts_append,
        narrow_rowStarts_getLastD]
      congr 2
      omega
    case blockDirOffsets =>
      simp only [filled, if_true, List.map_append, List.map_singleton, narrow_rowStarts_append,
        List.length_append]
    case nextTermIdx =>
      simp only [filled, List.length_append, List.length_singleton]
      omega
    all_goals simp [filled]
  | false =>
    rw [FieldChannels.pushTerm, if_neg Bool.false_ne_true]
    simp only [encodeAndStore_eq]
    ext1
    case roaring => exact roaring.symm
    case segmentDescriptors => exact (descriptors_append_singleton terms term).symm
    case postingsSkippedTerms => exact skipped.symm
    case offsets =>
      simp only [filled, Bool.false_eq_true, if_false, List.map_append, List.map_singleton,
        narrow_rowStarts_append, List.length_append]
    case blockOffsets =>
      simp only [filled, Bool.false_eq_true, if_false, List.map_append, List.map_singleton,
        narrow_rowStarts_append, List.length_append]
    case nextTermIdx =>
      simp only [filled, List.length_append, List.length_singleton]
      omega
    all_goals simp [filled]

/-- The channels of a field after all its terms, pushed by a merge or by a build. -/
theorem foldl_pushTerm (diskEnabled : Bool) (terms : List TermPostings) :
    terms.foldl (fun channels term => channels.pushTerm diskEnabled term.1 term.2)
      (FieldChannels.new diskEnabled) = filled diskEnabled terms := by
  induction terms using List.reverseRecOn with
  | nil => cases diskEnabled <;> rfl
  | append_singleton terms term ih =>
    rw [List.foldl_append, ih, List.foldl_cons, List.foldl_nil, pushTerm_filled]

theorem foldl_pushPostings (diskEnabled : Bool) (lists : List (List Posting)) :
    lists.foldl (fun channels postings => channels.pushPostings diskEnabled postings)
        (FieldChannels.new diskEnabled) =
      filled diskEnabled (lists.map fun postings =>
        (postings.map Posting.docId, postings.map Posting.freq)) := by
  rw [← foldl_pushTerm, List.foldl_map]
  simp only [pushPostings_eq_pushTerm]

end Filled

end Surch.Postings
