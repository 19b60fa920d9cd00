import Surch.Codec.Blocked

/-! The block directory against the payload it describes: every entry points at the bytes
of its own block, the recomputed directory is the written one, and each block takes at
least one byte for eight postings. -/
namespace Surch.Codec
open Surch.Lib

def chunkPayload (blocks : List (List Nat × List Nat)) : List UInt8 :=
  blocks.flatMap fun chunk => (encodeBlockInto chunk.1 chunk.2).1

@[simp] theorem chunkPayload_nil : chunkPayload [] = [] := rfl

@[simp] theorem chunkPayload_cons (chunk : List Nat × List Nat) (rest : List (List Nat × List Nat)) :
    chunkPayload (chunk :: rest) = (encodeBlockInto chunk.1 chunk.2).1 ++ chunkPayload rest :=
  List.flatMap_cons

theorem chunkPayload_append (first second : List (List Nat × List Nat)) :
    chunkPayload (first ++ second) = chunkPayload first ++ chunkPayload second :=
  List.flatMap_append

theorem chunkDirectory_length (offset : Nat) (blocks : List (List Nat × List Nat)) :
    (chunkDirectory offset blocks).length = blocks.length := by
  induction blocks generalizing offset with
  | nil => rfl
  | cons chunk blocks ih => simp [chunkDirectory, ih]

theorem chunkDirectory_getElem? (offset : Nat) (blocks : List (List Nat × List Nat)) (b : Nat) :
    (chunkDirectory offset blocks)[b]? = blocks[b]?.map fun chunk =>
      { byteOffsetInTermPayload := (offset + (chunkPayload (blocks.take b)).length) % 2 ^ 32
        count := chunk.1.length % 2 ^ 16
        maxDocId := chunk.1.getLastD 0 } := by
  induction blocks generalizing offset b with
  | nil => simp [chunkDirectory]
  | cons chunk blocks ih =>
    cases b with
    | zero => simp [chunkDirectory]
    | succ b =>
      rw [chunkDirectory, List.getElem?_cons_succ, ih, List.getElem?_cons_succ, List.take_succ_cons,
        chunkPayload_cons, List.length_append, Nat.add_assoc]

/-- A block is never shorter than its header and its first identifier. -/
theorem two_le_block_length (docChunk freqChunk : List Nat) :
    2 ≤ (encodeBlockInto docChunk freqChunk).1.length := by
  have first := writeVarintU32_length_pos (docChunk.headD 0)
  simp only [encodeBlockInto, docIdPart, List.length_append, List.length_cons]
  omega

theorem flatMap_varint_length (values : List Nat) :
    values.length ≤ (values.flatMap writeVarintU32).length := by
  induction values with
  | nil => simp
  | cons v values ih =>
    have := writeVarintU32_length_pos v
    rw [List.flatMap_cons, List.length_append, List.length_cons]
    omega

theorem docChannel_length (plan : DocPlan) (deltas : List Nat) (suits : plan.Suits deltas) :
    (deltas.length + 7) / 8 ≤ (writeDocChannel plan deltas).length := by
  have packed : ∀ width, 1 ≤ width → (deltas.length + 7) / 8 ≤ packedLen deltas.length width := by
    intro width positive
    have := Nat.mul_le_mul_left deltas.length positive
    unfold packedLen
    omega
  cases plan with
  | varint =>
    have := flatMap_varint_length deltas
    simp only [writeDocChannel]
    omega
  | packed width =>
    obtain ⟨positive, _, narrow⟩ := suits
    have := packed width positive
    have size := packBits_length deltas width narrow positive
    simp only [writeDocChannel, List.length_cons]
    omega
  | patched width exceptions =>
    obtain ⟨positive, _, _, _⟩ := suits
    have := packed width positive
    have zeroed : ∀ v ∈ deltas.map (fun d => if d ≥ 2 ^ width then 0 else d), v < 2 ^ width := by
      intro v member
      obtain ⟨d, _, rfl⟩ := List.mem_map.mp member
      split
      · exact Nat.two_pow_pos width
      · omega
    have size := packBits_length _ width zeroed positive
    rw [List.length_map] at size
    simp only [writeDocChannel, List.length_cons, List.length_append]
    omega

theorem block_density {docs freqs : List Nat} (block : IsBlock docs freqs) :
    (docs.length + 7) / 8 ≤ (encodeBlockInto docs freqs).1.length := by
  have first := writeVarintU32_length_pos (docs.headD 0)
  have channel := docChannel_length _ _ (docPlan_suits _ (blockDeltas_lt docs block.docs_fit))
  rw [blockDeltas_length] at channel
  simp only [encodeBlockInto, docIdPart, List.length_append, List.length_cons]
  omega

section Postings

variable {docIds freqs : List Nat}

def blockDocs (docIds : List Nat) (b : Nat) : List Nat :=
  (docIds.drop (forBlockSize * b)).take forBlockSize

def blockOffset (docIds freqs : List Nat) (b : Nat) : Nat :=
  (chunkPayload ((postingsChunks docIds freqs).take b)).length

theorem postingsChunks_getElem? (aligned : docIds.length = freqs.length) (b : Nat) :
    (postingsChunks docIds freqs)[b]? =
      if forBlockSize * b < docIds.length then some (blockDocs docIds b, blockDocs freqs b)
      else none := by
  rw [postingsChunks, List.zip, List.getElem?_zipWith, chunks_getElem? forBlockSize_pos,
    chunks_getElem? forBlockSize_pos, ← aligned]
  by_cases inside : forBlockSize * b < docIds.length
  · rw [if_pos inside, if_pos inside, if_pos inside]
    rfl
  · rw [if_neg inside, if_neg inside, if_neg inside]

theorem postingsChunks_length (aligned : docIds.length = freqs.length) :
    (postingsChunks docIds freqs).length = (docIds.length + forBlockSize - 1) / forBlockSize := by
  rw [postingsChunks, List.length_zip, chunks_length forBlockSize_pos,
    chunks_length forBlockSize_pos, aligned, Nat.min_self]

theorem lt_postingsChunks_length (aligned : docIds.length = freqs.length) (b : Nat) :
    b < (postingsChunks docIds freqs).length ↔ forBlockSize * b < docIds.length := by
  rw [postingsChunks_length aligned]
  simp only [forBlockSize]
  omega

theorem blockDocs_length (docIds : List Nat) (b : Nat) :
    (blockDocs docIds b).length = min forBlockSize (docIds.length - forBlockSize * b) := by
  rw [blockDocs, List.length_take, List.length_drop]

theorem blockDocs_getElem? (docIds : List Nat) (b i : Nat) (inside : i < forBlockSize) :
    (blockDocs docIds b)[i]? = docIds[forBlockSize * b + i]? := by
  rw [blockDocs, List.getElem?_take_of_lt inside, List.getElem?_drop]

/-- The last posting of a block is the last one before the next block starts. -/
theorem blockDocs_getLastD (docIds : List Nat) (b : Nat) (inside : forBlockSize * b < docIds.length) :
    some ((blockDocs docIds b).getLastD 0) =
      docIds[min (forBlockSize * (b + 1)) docIds.length - 1]? := by
  have size := blockDocs_length docIds b
  have positive := forBlockSize_pos
  have nonempty : blockDocs docIds b ≠ [] := by
    rw [← List.length_pos_iff, size]
    omega
  have last : (blockDocs docIds b).getLastD 0 = (blockDocs docIds b).getLast nonempty := by
    rw [List.getLastD_eq_getLast?, List.getLast?_eq_some_getLast nonempty, Option.getD_some]
  rw [last, ← List.getLast?_eq_some_getLast, List.getLast?_eq_getElem?, size,
    blockDocs_getElem? _ _ _ (by omega)]
  congr 1
  rw [Nat.mul_succ]
  omega

theorem isBlock_of_postings (postings : IsPostings docIds freqs) (b : Nat)
    (inside : forBlockSize * b < docIds.length) :
    IsBlock (blockDocs docIds b) (blockDocs freqs b) := by
  refine (postings.drop (forBlockSize * b)).firstBlock ?_
  rw [← List.length_pos_iff, List.length_drop]
  omega

theorem payload_split (aligned : docIds.length = freqs.length) (b : Nat)
    (inside : forBlockSize * b < docIds.length) :
    chunkPayload (postingsChunks docIds freqs) =
      chunkPayload ((postingsChunks docIds freqs).take b) ++
        (encodeBlockInto (blockDocs docIds b) (blockDocs freqs b)).1 ++
        chunkPayload ((postingsChunks docIds freqs).drop (b + 1)) := by
  have at_b := postingsChunks_getElem? aligned b
  rw [if_pos inside] at at_b
  obtain ⟨bound, value⟩ := List.getElem?_eq_some_iff.mp at_b
  conv_lhs => rw [← List.take_append_drop b (postingsChunks docIds freqs)]
  rw [chunkPayload_append, List.drop_eq_getElem_cons bound, value, chunkPayload_cons,
    List.append_assoc]

theorem blockOffset_zero (docIds freqs : List Nat) : blockOffset docIds freqs 0 = 0 := rfl

theorem blockOffset_succ (aligned : docIds.length = freqs.length) (b : Nat)
    (inside : forBlockSize * b < docIds.length) :
    blockOffset docIds freqs (b + 1) =
      blockOffset docIds freqs b +
        (encodeBlockInto (blockDocs docIds b) (blockDocs freqs b)).1.length := by
  have at_b := postingsChunks_getElem? aligned b
  rw [if_pos inside] at at_b
  rw [blockOffset, blockOffset, List.take_add_one, at_b, Option.toList_some, chunkPayload_append,
    List.length_append, chunkPayload_cons, chunkPayload_nil, List.append_nil]

theorem blockOffset_le (docIds freqs : List Nat) (b : Nat) :
    blockOffset docIds freqs b ≤ (chunkPayload (postingsChunks docIds freqs)).length := by
  have whole := congrArg chunkPayload (List.take_append_drop b (postingsChunks docIds freqs))
  rw [chunkPayload_append] at whole
  rw [← whole, List.length_append]
  exact Nat.le_add_right _ _

theorem blockOffset_last (b : Nat) (past : (postingsChunks docIds freqs).length ≤ b) :
    blockOffset docIds freqs b = (chunkPayload (postingsChunks docIds freqs)).length := by
  rw [blockOffset, List.take_of_length_le past]

theorem chunkDirectory_entry (aligned : docIds.length = freqs.length) (b : Nat) :
    (chunkDirectory 0 (postingsChunks docIds freqs))[b]? =
      if forBlockSize * b < docIds.length then
        some { byteOffsetInTermPayload := blockOffset docIds freqs b % 2 ^ 32
               count := (blockDocs docIds b).length
               maxDocId := (blockDocs docIds b).getLastD 0 }
      else none := by
  rw [chunkDirectory_getElem?, postingsChunks_getElem? aligned]
  split
  · have short : (blockDocs docIds b).length < 2 ^ 16 := by
      rw [blockDocs_length]
      simp only [forBlockSize]
      omega
    rw [Option.map_some, Nat.zero_add, Nat.mod_eq_of_lt short]
    rfl
  · rfl

/-- Walking an encoded payload recomputes the directory written with it. -/
theorem directoryBlocks_spec (postings : IsPostings docIds freqs) (offset : Nat)
    (rest : List UInt8) :
    directoryBlocks (offset + (chunkPayload (postingsChunks docIds freqs)).length + rest.length)
        docIds.length (chunkPayload (postingsChunks docIds freqs) ++ rest) =
      .ok (chunkDirectory offset (postingsChunks docIds freqs), rest) := by
  induction docIds using chunks_induction forBlockSize_pos generalizing freqs offset with
  | nil =>
    rw [List.length_nil, directoryBlocks, if_pos rfl, postingsChunks, chunks_nil, List.zip_nil_left]
    rfl
  | step docIds nonempty ih =>
    have positive := List.length_pos_iff.mpr nonempty
    have head := reads_block (postings.firstBlock nonempty)
    have tail := ih (postings.drop forBlockSize)
    rw [List.length_take, Nat.min_comm] at head
    rw [List.length_drop] at tail
    have remaining : docIds.length - min docIds.length forBlockSize =
        docIds.length - forBlockSize := by omega
    have count : (docIds.take forBlockSize).length = min docIds.length forBlockSize := by
      rw [List.length_take, Nat.min_comm]
    rw [postingsChunks_cons postings.aligned nonempty, chunkPayload_cons, directoryBlocks,
      if_neg (by omega)]
    simp only [List.length_append, List.append_assoc]
    rw [reader_bind]
    change ((decodeBlockAt _ >>= _) _ : Except _ _) = _
    rw [reader_bind, head]
    simp only [remaining]
    rw [reader_bind, ← Nat.add_assoc offset, tail]
    simp only [chunkDirectory, count, List.length_append]
    have position : ∀ here after : Nat,
        offset + here + after + rest.length - (here + (after + rest.length)) = offset := by omega
    rw [position]
    rfl

theorem blockDirectory_payload (postings : IsPostings docIds freqs) :
    blockDirectory (chunkPayload (postingsChunks docIds freqs)) docIds.length =
      .ok (chunkDirectory 0 (postingsChunks docIds freqs)) := by
  have walked := directoryBlocks_spec postings 0 []
  simp only [Nat.zero_add, List.length_nil, Nat.add_zero, List.append_nil] at walked
  rw [blockDirectory, walked]
  rfl

theorem decode_payload (postings : IsPostings docIds freqs) :
    decodePostingsBlocked (chunkPayload (postingsChunks docIds freqs)) docIds.length =
      .ok (docIds, freqs) := by
  rw [decodePostingsBlocked, chunkPayload, (reads_blocks postings).exact]
  rfl

theorem decodeBlock_payload (postings : IsPostings docIds freqs) (b : Nat)
    (inside : forBlockSize * b < docIds.length) :
    decodeBlock (encodeBlockInto (blockDocs docIds b) (blockDocs freqs b)).1
        (blockDocs docIds b).length =
      .ok (blockDocs docIds b, blockDocs freqs b) := by
  rw [decodeBlock, (reads_block (isBlock_of_postings postings b inside)).exact]
  rfl

theorem payload_density (postings : IsPostings docIds freqs) :
    (docIds.length + 7) / 8 ≤ (chunkPayload (postingsChunks docIds freqs)).length := by
  induction docIds using chunks_induction forBlockSize_pos generalizing freqs with
  | nil => simp
  | step docIds nonempty ih =>
    have head := block_density (postings.firstBlock nonempty)
    have tail := ih (postings.drop forBlockSize)
    rw [List.length_drop] at tail
    rw [List.length_take] at head
    rw [postingsChunks_cons postings.aligned nonempty, chunkPayload_cons, List.length_append]
    simp only [forBlockSize] at head tail ⊢
    omega

end Postings

end Surch.Codec
