import Surch.Codec.Grammar

/-! Blocks that are read alone, through the directory, and blocks that are read one after the other:
what the first reading gives for an encoded payload, and what the second one accepts of any bytes. -/
namespace Surch.Codec
open Surch.Lib

section Alone

variable {docIds freqs : List Nat}

theorem blockOffset_lt (aligned : docIds.length = freqs.length) {i j : Nat} (before : i < j)
    (inside : forBlockSize * j < docIds.length) :
    blockOffset docIds freqs i < blockOffset docIds freqs j := by
  induction j with
  | zero => omega
  | succ j ih =>
    have reached : forBlockSize * j < docIds.length := by
      unfold forBlockSize at inside ⊢
      omega
    have next := blockOffset_succ aligned j reached
    have size := two_le_block_length (blockDocs docIds j) (blockDocs freqs j)
    by_cases last : i = j
    · subst last
      omega
    · have earlier := ih (by omega) reached
      omega

theorem lastDoc_lt (increasing : docIds.Pairwise (· < ·)) {i j : Nat} (before : i < j)
    (inside : forBlockSize * j < docIds.length) :
    (blockDocs docIds i).getLastD 0 < (blockDocs docIds j).getLastD 0 := by
  have reached : forBlockSize * i < docIds.length := by
    unfold forBlockSize at inside ⊢
    omega
  have first := blockDocs_getLastD docIds i reached
  have second := blockDocs_getLastD docIds j inside
  obtain ⟨low, first⟩ := List.getElem?_eq_some_iff.mp first.symm
  obtain ⟨high, second⟩ := List.getElem?_eq_some_iff.mp second.symm
  rw [← first, ← second]
  apply List.pairwise_iff_getElem.mp increasing
  unfold forBlockSize at inside ⊢
  omega

/-- The directory, entry by entry, when the payload is short enough for its offsets. -/
theorem directory_entry (aligned : docIds.length = freqs.length)
    (short : (chunkPayload (postingsChunks docIds freqs)).length < 2 ^ 32) {j : Nat}
    {entry : BlockDirEntry} (found : (chunkDirectory 0 (postingsChunks docIds freqs))[j]? = some entry) :
    forBlockSize * j < docIds.length ∧
      entry.byteOffsetInTermPayload = blockOffset docIds freqs j ∧
      entry.count = (blockDocs docIds j).length ∧
      entry.maxDocId = (blockDocs docIds j).getLastD 0 := by
  have below := blockOffset_le docIds freqs j
  rw [chunkDirectory_entry aligned] at found
  split at found
  · rename_i inside
    cases found
    exact ⟨inside, Nat.mod_eq_of_lt (by omega), rfl, rfl⟩
  · cases found

def blockEnd (payload : List UInt8) (directory : List BlockDirEntry) (j : Nat) : Nat :=
  (directory[j + 1]?.map BlockDirEntry.byteOffsetInTermPayload).getD payload.length

def blockBytes (payload : List UInt8) (directory : List BlockDirEntry) (j : Nat)
    (entry : BlockDirEntry) : List UInt8 :=
  (payload.drop entry.byteOffsetInTermPayload).take
    (blockEnd payload directory j - entry.byteOffsetInTermPayload)

theorem blockEnd_eq (aligned : docIds.length = freqs.length)
    (short : (chunkPayload (postingsChunks docIds freqs)).length < 2 ^ 32) (j : Nat) :
    blockEnd (chunkPayload (postingsChunks docIds freqs))
      (chunkDirectory 0 (postingsChunks docIds freqs)) j = blockOffset docIds freqs (j + 1) := by
  unfold blockEnd
  cases next : (chunkDirectory 0 (postingsChunks docIds freqs))[j + 1]? with
  | some entry => exact (directory_entry aligned short next).2.1
  | none =>
    apply (blockOffset_last _ _).symm
    simpa [chunkDirectory_length] using List.getElem?_eq_none_iff.mp next

theorem blockBytes_eq (aligned : docIds.length = freqs.length)
    (short : (chunkPayload (postingsChunks docIds freqs)).length < 2 ^ 32) {j : Nat}
    {entry : BlockDirEntry} (found : (chunkDirectory 0 (postingsChunks docIds freqs))[j]? = some entry) :
    blockBytes (chunkPayload (postingsChunks docIds freqs))
        (chunkDirectory 0 (postingsChunks docIds freqs)) j entry =
      (encodeBlockInto (blockDocs docIds j) (blockDocs freqs j)).1 := by
  obtain ⟨inside, offset, -, -⟩ := directory_entry aligned short found
  have start : blockOffset docIds freqs j =
      (chunkPayload ((postingsChunks docIds freqs).take j)).length := rfl
  have next := blockOffset_succ aligned j inside
  unfold blockBytes
  rw [blockEnd_eq aligned short, offset, payload_split aligned j inside, List.append_assoc, start,
    List.drop_left, ← start]
  apply List.take_left'
  omega

/-- The directory is the one that decoding recomputes, it is in order, and each block is decoded from
its own bytes, whatever follows them. -/
theorem blocks_addressable (docIds freqs : List Nat) (aligned : docIds.length = freqs.length)
    (increasing : docIds.Pairwise (· < ·)) (docs_fit : ∀ d ∈ docIds, d < 2 ^ 32)
    (freqs_fit : ∀ f ∈ freqs, f < 2 ^ 32) :
    ∃ output, encodePostingsBlockedWithDirectory docIds freqs = .ok output ∧
      (output.payload.length < 2 ^ 32 →
        blockDirectory output.payload docIds.length = .ok output.directory ∧
        (∀ entry ∈ output.directory.head?, entry.byteOffsetInTermPayload = 0) ∧
        output.directory.Pairwise (fun entry later =>
          entry.byteOffsetInTermPayload < later.byteOffsetInTermPayload ∧
            entry.maxDocId < later.maxDocId) ∧
        output.directory.map BlockDirEntry.maxDocId =
          (chunks forBlockSize docIds).map (fun chunk => chunk.getLastD 0) ∧
        ∀ j entry, output.directory[j]? = some entry → ∀ extension,
          decodeBlock (blockBytes output.payload output.directory j entry ++ extension) entry.count =
            .ok (blockDocs docIds j, blockDocs freqs j)) := by
  have postings : IsPostings docIds freqs :=
    ⟨aligned, List.isChain_iff_pairwise.mpr increasing, docs_fit, freqs_fit⟩
  obtain ⟨output, encoded, payload, directory⟩ := encodeWithDirectory_ok aligned postings.increasing
  refine ⟨output, encoded, ?_⟩
  intro short
  change output.payload = chunkPayload (postingsChunks docIds freqs) at payload
  rw [payload] at short ⊢
  rw [directory]
  refine ⟨blockDirectory_payload postings, ?_, ?_, ?_, ?_⟩
  · intro entry first
    rw [List.head?_eq_getElem?] at first
    exact (directory_entry aligned short first).2.1
  · apply List.pairwise_iff_getElem.mpr
    intro i j low high before
    obtain ⟨-, offset, -, last⟩ := directory_entry aligned short (List.getElem?_eq_getElem low)
    obtain ⟨inside, later_offset, -, later_last⟩ :=
      directory_entry aligned short (List.getElem?_eq_getElem high)
    rw [offset, later_offset, last, later_last]
    exact ⟨blockOffset_lt aligned before inside, lastDoc_lt increasing before inside⟩
  · apply List.ext_getElem?
    intro j
    rw [List.getElem?_map, List.getElem?_map, chunkDirectory_entry aligned,
      chunks_getElem? forBlockSize_pos]
    split <;> rfl
  · intro j entry found extension
    obtain ⟨inside, -, count, -⟩ := directory_entry aligned short found
    have reads := reads_block (isBlock_of_postings postings j inside)
    rw [blockBytes_eq aligned short found, count, decodeBlock, reads]
    rfl

/-- A full block and two more postings: the second block is read from its own bytes. -/
theorem blocks_addressable_two_blocks :
    ∃ output entry, encodePostingsBlockedWithDirectory (List.range 130) (List.replicate 130 1) = .ok output ∧
      output.directory.map BlockDirEntry.maxDocId = [127, 129] ∧ output.directory[1]? = some entry ∧
      decodeBlock (blockBytes output.payload output.directory 1 entry) entry.count =
        .ok ([128, 129], [1, 1]) := by
  obtain ⟨output, encoded, addressable⟩ := blocks_addressable (List.range 130) (List.replicate 130 1)
    (by simp) List.pairwise_lt_range (by decide +kernel) (by decide +kernel)
  have payload_length : (encodePostingsBlockedWithDirectory (List.range 130) (List.replicate 130 1)).map
      (fun output => output.payload.length) = .ok 23 := by decide +kernel
  rw [encoded] at payload_length
  have length : output.payload.length = 23 := Except.ok.inj payload_length
  obtain ⟨-, -, -, last, each⟩ := addressable (by rw [length]; decide)
  have two : output.directory.map BlockDirEntry.maxDocId = [127, 129] := last.trans (by decide +kernel)
  have inside : 1 < output.directory.length := by
    rw [← List.length_map (f := BlockDirEntry.maxDocId), two]
    decide
  refine ⟨output, _, encoded, two, List.getElem?_eq_getElem inside, ?_⟩
  have read := each 1 _ (List.getElem?_eq_getElem inside) []
  rw [List.append_nil] at read
  rw [read]
  decide +kernel

end Alone

section Sequence

/- However the bytes begin with the blocks of so many postings, each block begins above the last identifier
of the block before it. -/
def BlocksAscend (bytes : List UInt8) (count : Nat) : Prop :=
  ∀ payload rest blocks freqs, bytes = payload ++ rest → SpellsBlocks count payload blocks freqs →
    blocks.IsChain fun docs next => ∀ last ∈ docs.getLast?, ∀ first ∈ next.head?, last < first

/-- Decoding is closed to disorder inside the blocks; across them it relies on the bytes. -/
theorem decodes_in_order (bytes : List UInt8) (count : Nat) :
    (∀ docIds freqs, decodePostingsBlocked bytes count = .ok (docIds, freqs) →
      docIds.length = count ∧ freqs.length = count ∧ docIds.Pairwise (· < ·)) ↔
    BlocksAscend bytes count := by
  -- only the boundaries between blocks are left to say
  have ordered {payload : List UInt8} {blocks : List (List Nat)} {freqs : List Nat}
      (spelled : SpellsBlocks count payload blocks freqs) :
      blocks.flatten.Pairwise (· < ·) ↔
        blocks.IsChain fun docs next => ∀ last ∈ docs.getLast?, ∀ first ∈ next.head?, last < first := by
    obtain ⟨-, -, each⟩ := spelled.shape
    have no_empty : [] ∉ blocks := fun member => (each [] member).1 rfl
    rw [← List.isChain_iff_pairwise, List.isChain_flatten no_empty]
    exact and_iff_right fun docs member => (each docs member).2
  constructor
  · rintro holds payload rest blocks freqs rfl spelled
    have decoded : decodePostingsBlocked (payload ++ rest) count = .ok (blocks.flatten, freqs) := by
      have read : Reads (decodeBlocks count) payload (blocks.flatten, freqs) :=
        (accepts_blocks count).reads ⟨blocks, spelled, rfl⟩
      rw [decodePostingsBlocked, read]
      rfl
    exact (ordered spelled).mp (holds _ _ decoded).2.2
  · intro ascend docIds freqs decoded
    obtain ⟨⟨term, rest⟩, read, same⟩ := except_map_ok.mp decoded
    obtain ⟨payload, ⟨blocks, spelled, docs⟩, taken⟩ := (accepts_blocks count _ _ _).mp read
    cases same
    dsimp only at docs spelled
    obtain ⟨docs_length, freqs_length, -⟩ := spelled.shape
    rw [← docs] at docs_length
    refine ⟨docs_length, freqs_length, ?_⟩
    rw [docs]
    exact (ordered spelled).mpr (ascend payload rest blocks freqs taken spelled)

def startingOver : List UInt8 :=
  (encodeBlockInto (List.range 128) (List.replicate 128 1)).1 ++ (encodeBlockInto [5] [1]).1

/-- The two blocks are decoded one after the other, and the second is not above the first. -/
theorem not_decodes_in_order : ¬ ∀ (bytes : List UInt8) (count : Nat) (docIds freqs : List Nat),
    decodePostingsBlocked bytes count = .ok (docIds, freqs) →
      docIds.length = count ∧ freqs.length = count ∧ docIds.Pairwise (· < ·) := by
  intro always
  have full : IsBlock (List.range 128) (List.replicate 128 1) := by
    constructor
    · simp
    · simp [forBlockSize]
    · simp
    · exact List.isChain_iff_pairwise.mpr List.pairwise_lt_range
    · intro d member
      have below := List.mem_range.mp member
      omega
    · intro f member
      rw [List.eq_of_mem_replicate member]
      decide
  have single : IsBlock [5] [1] := by
    constructor <;> decide
  have first := reads_block full
  have second := reads_block single
  rw [List.length_range] at first
  have nothing : Reads (decodeBlocks 0) [] ([], []) := by
    unfold decodeBlocks
    exact Reads.pure _
  have last : Reads (decodeBlocks 1) (encodeBlockInto [5] [1]).1 ([5], [1]) := by
    unfold decodeBlocks
    exact second.bind_silent (nothing.bind_silent (Reads.pure _))
  have both : Reads (decodeBlocks 129) startingOver
      (List.range 128 ++ [5], List.replicate 128 1 ++ [1]) := by
    unfold decodeBlocks
    exact first.bind (last.bind_silent (Reads.pure _))
  have decoded : decodePostingsBlocked startingOver 129 =
      .ok (List.range 128 ++ [5], List.replicate 128 1 ++ [1]) := by
    rw [decodePostingsBlocked, both.exact]
    rfl
  have disorder := List.pairwise_append.mp (always startingOver 129 _ _ decoded).2.2
  have above := disorder.2.2 127 (List.mem_range.mpr (by decide)) 5 (List.mem_singleton_self 5)
  omega

end Sequence

end Surch.Codec
