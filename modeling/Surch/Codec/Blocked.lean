import Surch.Codec.BlockRoundTrip

/-! `encode_postings_blocked_with_directory`, `decode_postings_blocked` and
`block_directory`: a term's payload as a sequence of self-contained blocks. -/
namespace Surch.Codec
open Surch.Lib

/-- Where one block lives inside a term's payload, and its last identifier. -/
structure BlockDirEntry where
  byteOffsetInTermPayload : Nat
  count : Nat
  maxDocId : Nat
deriving DecidableEq, Repr, Inhabited

structure BlockedEncodeOutput where
  payload : List UInt8
  directory : List BlockDirEntry
  stats : BlockedEncodeStats
deriving DecidableEq, Repr

def validateStrictlyIncreasing (sorted : List Nat) : Except PostingsBlockError Unit :=
  if (windows2 sorted).all fun pair => pair.1 < pair.2 then .ok () else .error .notMonotonic

/-- One iteration of the encoding loop. The offset is narrowed to `u32` and the count
to `u16`, as the directory stores them. -/
def BlockedEncodeOutput.pushBlock (output : BlockedEncodeOutput) (docChunk freqChunk : List Nat) :
    BlockedEncodeOutput :=
  let block := encodeBlockInto docChunk freqChunk
  { payload := output.payload ++ block.1
    directory := output.directory ++
      [{ byteOffsetInTermPayload := output.payload.length % 2 ^ 32
         count := docChunk.length % 2 ^ 16
         maxDocId := docChunk.getLastD 0 }]
    stats := output.stats.merge block.2 }

/-- `encode_postings_blocked_with_directory`. -/
def encodePostingsBlockedWithDirectory (docIds freqs : List Nat) :
    Except PostingsBlockError BlockedEncodeOutput :=
  if docIds.length ≠ freqs.length then .error .notMonotonic
  else do
    validateStrictlyIncreasing docIds
    return ((chunks forBlockSize docIds).zip (chunks forBlockSize freqs)).foldl
      (fun output chunk => output.pushBlock chunk.1 chunk.2)
      { payload := [], directory := [], stats := {} }

/-- `encode_postings_blocked`. -/
def encodePostingsBlocked (docIds freqs : List Nat) : Except PostingsBlockError (List UInt8) :=
  (encodePostingsBlockedWithDirectory docIds freqs).map BlockedEncodeOutput.payload

/-- The loop of `decode_postings_blocked`. -/
def decodeBlocks (remaining : Nat) : BlockReader (List Nat × List Nat) :=
  if remaining = 0 then return ([], [])
  else do
    let blockCount := min remaining forBlockSize
    let (blockDocIds, blockFreqs) ← decodeBlockAt blockCount
    let (docIds, freqs) ← decodeBlocks (remaining - blockCount)
    return (blockDocIds ++ docIds, blockFreqs ++ freqs)
termination_by remaining
decreasing_by unfold forBlockSize; omega

/-- `decode_postings_blocked`: trailing bytes are ignored. -/
def decodePostingsBlocked (bytes : List UInt8) (totalCount : Nat) :
    Except PostingsBlockError (List Nat × List Nat) :=
  (decodeBlocks totalCount bytes).map Prod.fst

/-- The loop of `block_directory`; `total` is the length of the whole payload, so that
the position of a block is what has been consumed of it. -/
def directoryBlocks (total remaining : Nat) : BlockReader (List BlockDirEntry) :=
  if remaining = 0 then return []
  else do
    let blockCount := min remaining forBlockSize
    let unread ← get
    let (docIds, _) ← decodeBlockAt blockCount
    let entries ← directoryBlocks total (remaining - blockCount)
    return { byteOffsetInTermPayload := (total - unread.length) % 2 ^ 32
             count := blockCount % 2 ^ 16
             maxDocId := docIds.getLastD 0 } :: entries
termination_by remaining
decreasing_by unfold forBlockSize; omega

/-- `block_directory`. -/
def blockDirectory (bytes : List UInt8) (totalCount : Nat) :
    Except PostingsBlockError (List BlockDirEntry) :=
  (directoryBlocks bytes.length totalCount bytes).map Prod.fst

/-- A term's postings as the codec accepts them. -/
structure IsPostings (docIds freqs : List Nat) : Prop where
  aligned : docIds.length = freqs.length
  increasing : docIds.IsChain (· < ·)
  docs_fit : ∀ d ∈ docIds, d < 2 ^ 32
  freqs_fit : ∀ f ∈ freqs, f < 2 ^ 32

/-- The pairs of chunks the encoding loop visits. -/
def postingsChunks (docIds freqs : List Nat) : List (List Nat × List Nat) :=
  (chunks forBlockSize docIds).zip (chunks forBlockSize freqs)

/-- The directory the encoding loop writes, from the payload position `offset` on. -/
def chunkDirectory (offset : Nat) : List (List Nat × List Nat) → List BlockDirEntry
  | [] => []
  | chunk :: rest =>
    { byteOffsetInTermPayload := offset % 2 ^ 32
      count := chunk.1.length % 2 ^ 16
      maxDocId := chunk.1.getLastD 0 } ::
      chunkDirectory (offset + (encodeBlockInto chunk.1 chunk.2).1.length) rest

theorem forBlockSize_pos : 0 < forBlockSize := by decide

theorem validate_ok_iff (sorted : List Nat) :
    validateStrictlyIncreasing sorted = .ok () ↔ sorted.IsChain (· < ·) := by
  have windows := windows2_all_iff (fun a b => decide (a < b)) sorted
  simp only [decide_eq_true_eq] at windows
  unfold validateStrictlyIncreasing
  rw [← windows]
  split <;> simp_all

theorem validate_error_iff (sorted : List Nat) (e : PostingsBlockError) :
    validateStrictlyIncreasing sorted = .error e ↔
      e = .notMonotonic ∧ ¬ sorted.IsChain (· < ·) := by
  rw [← validate_ok_iff]
  unfold validateStrictlyIncreasing
  split <;> simp [eq_comm]

theorem pushBlock_foldl (blocks : List (List Nat × List Nat)) (output : BlockedEncodeOutput) :
    (blocks.foldl (fun output chunk => output.pushBlock chunk.1 chunk.2) output).payload =
        output.payload ++ blocks.flatMap (fun chunk => (encodeBlockInto chunk.1 chunk.2).1) ∧
      (blocks.foldl (fun output chunk => output.pushBlock chunk.1 chunk.2) output).directory =
        output.directory ++ chunkDirectory output.payload.length blocks := by
  induction blocks generalizing output with
  | nil => simp [chunkDirectory]
  | cons chunk blocks ih =>
    obtain ⟨payload, directory⟩ := ih (output.pushBlock chunk.1 chunk.2)
    rw [List.foldl_cons, payload, directory]
    simp [BlockedEncodeOutput.pushBlock, chunkDirectory]

theorem encodeWithDirectory_ok {docIds freqs : List Nat} (aligned : docIds.length = freqs.length)
    (increasing : docIds.IsChain (· < ·)) :
    ∃ output, encodePostingsBlockedWithDirectory docIds freqs = .ok output ∧
      output.payload =
        (postingsChunks docIds freqs).flatMap (fun chunk => (encodeBlockInto chunk.1 chunk.2).1) ∧
      output.directory = chunkDirectory 0 (postingsChunks docIds freqs) := by
  have folded := pushBlock_foldl (postingsChunks docIds freqs)
    { payload := [], directory := [], stats := {} }
  refine ⟨_, ?_, folded.1, folded.2⟩
  rw [encodePostingsBlockedWithDirectory, if_neg (by simpa using aligned),
    (validate_ok_iff docIds).mpr increasing]
  rfl

theorem encodeWithDirectory_error_iff (docIds freqs : List Nat) :
    (∃ e, encodePostingsBlockedWithDirectory docIds freqs = .error e) ↔
      docIds.length ≠ freqs.length ∨ ¬ docIds.IsChain (· < ·) := by
  constructor
  · rintro ⟨e, refused⟩
    by_contra accepted
    rw [not_or, not_not, not_not] at accepted
    obtain ⟨output, ok, _⟩ := encodeWithDirectory_ok accepted.1 accepted.2
    rw [ok] at refused
    cases refused
  · rintro (lengths | disorder)
    · exact ⟨.notMonotonic, if_pos lengths⟩
    · by_cases lengths : docIds.length = freqs.length
      · refine ⟨.notMonotonic, ?_⟩
        rw [encodePostingsBlockedWithDirectory, if_neg (by simpa using lengths),
          (validate_error_iff docIds _).mpr ⟨rfl, disorder⟩]
        rfl
      · exact ⟨.notMonotonic, if_pos lengths⟩

theorem postingsChunks_cons {docIds freqs : List Nat} (aligned : docIds.length = freqs.length)
    (nonempty : docIds ≠ []) :
    postingsChunks docIds freqs =
      (docIds.take forBlockSize, freqs.take forBlockSize) ::
        postingsChunks (docIds.drop forBlockSize) (freqs.drop forBlockSize) := by
  have also : freqs ≠ [] := by
    rw [← List.length_pos_iff, ← aligned]
    exact List.length_pos_iff.mpr nonempty
  rw [postingsChunks, chunks_of_ne_nil forBlockSize_pos nonempty,
    chunks_of_ne_nil forBlockSize_pos also, List.zip_cons_cons]
  rfl

namespace IsPostings

variable {docIds freqs : List Nat}

theorem drop (postings : IsPostings docIds freqs) (n : Nat) :
    IsPostings (docIds.drop n) (freqs.drop n) where
  aligned := by rw [List.length_drop, List.length_drop, postings.aligned]
  increasing := postings.increasing.drop n
  docs_fit d member := postings.docs_fit d (List.mem_of_mem_drop member)
  freqs_fit f member := postings.freqs_fit f (List.mem_of_mem_drop member)

theorem firstBlock (postings : IsPostings docIds freqs) (nonempty : docIds ≠ []) :
    IsBlock (docIds.take forBlockSize) (freqs.take forBlockSize) where
  nonempty := by simpa [List.take_eq_nil_iff, nonempty] using by decide
  short := List.length_take_le _ _
  aligned := by rw [List.length_take, List.length_take, postings.aligned]
  increasing := postings.increasing.take forBlockSize
  docs_fit d member := postings.docs_fit d (List.mem_of_mem_take member)
  freqs_fit f member := postings.freqs_fit f (List.mem_of_mem_take member)

end IsPostings

theorem reads_blocks {docIds freqs : List Nat} (postings : IsPostings docIds freqs) :
    Reads (decodeBlocks docIds.length)
      ((postingsChunks docIds freqs).flatMap fun chunk => (encodeBlockInto chunk.1 chunk.2).1)
      (docIds, freqs) := by
  induction docIds using chunks_induction forBlockSize_pos generalizing freqs with
  | nil =>
    have empty : freqs = [] := List.length_eq_zero_iff.mp postings.aligned.symm
    subst empty
    rw [List.length_nil, decodeBlocks, if_pos rfl]
    simpa [postingsChunks] using Reads.pure (([], []) : List Nat × List Nat)
  | step docIds nonempty ih =>
    have positive := List.length_pos_iff.mpr nonempty
    have head := reads_block (postings.firstBlock nonempty)
    have tail := ih (postings.drop forBlockSize)
    rw [List.length_drop] at tail
    rw [List.length_take, Nat.min_comm] at head
    have remaining : docIds.length - min docIds.length forBlockSize =
        docIds.length - forBlockSize := by omega
    rw [postingsChunks_cons postings.aligned nonempty, List.flatMap_cons, decodeBlocks,
      if_neg (by omega)]
    refine Reads.bind head ?_
    simp only [remaining]
    refine Reads.bind_silent tail ?_
    simp only [List.take_append_drop]
    exact Reads.pure _

/-- The encoder accepts exactly the aligned, strictly increasing lists, and decoding what
it wrote returns them whatever the planner chose for each block. -/
theorem encode_decode_round_trip (docIds freqs : List Nat) (docs_fit : ∀ d ∈ docIds, d < 2 ^ 32)
    (freqs_fit : ∀ f ∈ freqs, f < 2 ^ 32) :
    (docIds.length = freqs.length ∧ docIds.Pairwise (· < ·) →
      ∃ payload, encodePostingsBlocked docIds freqs = .ok payload ∧
        decodePostingsBlocked payload docIds.length = .ok (docIds, freqs)) ∧
    ((∃ e, encodePostingsBlocked docIds freqs = .error e) ↔
      docIds.length ≠ freqs.length ∨ ¬ docIds.Pairwise (· < ·)) := by
  have chain : docIds.IsChain (· < ·) ↔ docIds.Pairwise (· < ·) := List.isChain_iff_pairwise
  constructor
  · rintro ⟨aligned, increasing⟩
    obtain ⟨output, encoded, payload, _⟩ := encodeWithDirectory_ok aligned (chain.mpr increasing)
    have postings : IsPostings docIds freqs := ⟨aligned, chain.mpr increasing, docs_fit, freqs_fit⟩
    refine ⟨output.payload, ?_, ?_⟩
    · rw [encodePostingsBlocked, encoded]
      rfl
    · rw [decodePostingsBlocked, payload, (reads_blocks postings).exact]
      rfl
  · rw [← chain, ← encodeWithDirectory_error_iff, encodePostingsBlocked]
    cases encodePostingsBlockedWithDirectory docIds freqs <;> simp [Except.map]

/-- The bounds are met by the extreme identifiers and frequencies of `u32`. -/
theorem encode_decode_round_trip_extremes :
    ∃ payload, encodePostingsBlocked [0, 7, 4294967295] [0, 1, 4294967295] = .ok payload ∧
      decodePostingsBlocked payload 3 = .ok ([0, 7, 4294967295], [0, 1, 4294967295]) :=
  (encode_decode_round_trip [0, 7, 4294967295] [0, 1, 4294967295] (by decide) (by decide)).1
    (by decide)

end Surch.Codec
