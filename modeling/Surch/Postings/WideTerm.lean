import Surch.Codec.Directory

/-! A family of terms whose payload passes `2 ^ 32` bytes: consecutive identifiers with two
alternating frequencies. A payload's length is kept in a `u32`, so these terms bound what the
readers of a payload can promise. -/
namespace Surch.Postings
open Surch.Lib Surch.Codec

def wideFreqBlock : List Nat := (List.replicate 64 [1, 128]).flatten

def wideDocs (n : Nat) : List Nat := List.range (forBlockSize * n)

def wideFreqs (n : Nat) : List Nat := (List.replicate n wideFreqBlock).flatten

theorem blockDeltas_range' (start n : Nat) :
    blockDeltas (List.range' start (n + 1)) = List.replicate n 1 := by
  induction n generalizing start with
  | zero => rfl
  | succ n ih =>
    have next := ih (start + 1)
    rw [List.range'_succ] at next
    rw [List.range'_succ, List.range'_succ, blockDeltas, windows2_cons_cons, List.map_cons,
      List.replicate_succ, ← next]
    simp only [Nat.add_sub_cancel_left]
    rfl

theorem writeVarintU32_length_le (value : Nat) : ∀ k, value < 128 ^ (k + 1) →
    (writeVarintU32 value).length ≤ k + 1 := by
  induction value using Nat.strongRecOn with
  | ind value ih =>
    intro k small
    by_cases large : 128 ≤ value
    · rw [writeVarintU32_large large, List.length_cons]
      cases k with
      | zero => omega
      | succ k =>
        have fewer := ih (value / 128) (by omega) k (by
          rw [Nat.pow_succ] at small
          exact Nat.div_lt_of_lt_mul (by rwa [Nat.mul_comm]))
        omega
    · rw [writeVarintU32_small (by omega)]
      simp

theorem wide_parts :
    docPlan (List.replicate 127 1) = .packed 1 ∧ (packBits (List.replicate 127 1) 1).length = 16 ∧
      (writeFreqChannel (freqMode wideFreqBlock) wideFreqBlock).length = 129 ∧
      wideFreqBlock.length = forBlockSize := by
  decide +kernel

/-- A block of the family takes 147 bytes and its first identifier. -/
theorem wide_block_length (start : Nat) :
    (encodeBlockInto (List.range' start 128) wideFreqBlock).1.length =
      147 + (writeVarintU32 start).length := by
  have deltas : blockDeltas (List.range' start 128) = List.replicate 127 1 :=
    blockDeltas_range' start 127
  obtain ⟨plan, packed, channel, -⟩ := wide_parts
  have first : (List.range' start 128).headD 0 = start := rfl
  simp only [encodeBlockInto, docIdPart, deltas, plan, first, List.length_append,
    List.length_cons, writeDocChannel, packed, channel]
  omega

theorem wideFreqBlock_length : wideFreqBlock.length = forBlockSize := wide_parts.2.2.2

theorem wideFreqs_length (n : Nat) : (wideFreqs n).length = forBlockSize * n := by
  induction n with
  | zero => rfl
  | succ n ih =>
    rw [wideFreqs, List.replicate_succ, List.flatten_cons, List.length_append, ← wideFreqs, ih,
      wideFreqBlock_length, Nat.mul_succ, Nat.add_comm]

theorem wideFreqs_drop (n b : Nat) : (wideFreqs n).drop (forBlockSize * b) = wideFreqs (n - b) := by
  induction b generalizing n with
  | zero => rfl
  | succ b ih =>
    cases n with
    | zero => simp [wideFreqs]
    | succ n =>
      have one : (wideFreqs (n + 1)).drop forBlockSize = wideFreqs n := by
        rw [wideFreqs, List.replicate_succ, List.flatten_cons, ← wideFreqBlock_length,
          List.drop_left]
        rfl
      rw [Nat.mul_succ, Nat.add_comm, ← List.drop_drop, one, ih]
      congr 1
      omega

theorem blockDocs_wideFreqs {n b : Nat} (inside : b < n) :
    blockDocs (wideFreqs n) b = wideFreqBlock := by
  obtain ⟨m, hm⟩ : ∃ m, n - b = m + 1 := ⟨n - b - 1, by omega⟩
  rw [blockDocs, wideFreqs_drop, hm, wideFreqs, List.replicate_succ, List.flatten_cons,
    ← wideFreqBlock_length, List.take_left]

theorem blockDocs_wideDocs {n b : Nat} (inside : b < n) :
    blockDocs (wideDocs n) b = List.range' (forBlockSize * b) 128 := by
  have room : forBlockSize * b + 128 ≤ forBlockSize * n := by
    simp only [forBlockSize]
    omega
  have size : (blockDocs (wideDocs n) b).length = 128 := by
    rw [blockDocs_length, wideDocs, List.length_range]
    simp only [forBlockSize] at room ⊢
    omega
  apply List.ext_getElem (by rw [size, List.length_range'])
  intro i small _
  have at_i := blockDocs_getElem? (wideDocs n) b i (by rw [size] at small; exact small)
  have value : (wideDocs n)[forBlockSize * b + i]? = some (forBlockSize * b + i) :=
    List.getElem?_range (by omega)
  rw [List.getElem?_eq_getElem small, value] at at_i
  rw [List.getElem_range', Option.some.inj at_i, Nat.one_mul]

theorem mem_wideFreqBlock {f : Nat} (member : f ∈ wideFreqBlock) : f = 1 ∨ f = 128 := by
  obtain ⟨pair, inside, here⟩ := List.mem_flatten.mp member
  obtain ⟨_, rfl⟩ := List.mem_replicate.mp inside
  simpa using here

theorem wideFreqs_pos {n f : Nat} (member : f ∈ wideFreqs n) : 0 < f := by
  obtain ⟨block, inside, here⟩ := List.mem_flatten.mp member
  obtain ⟨_, rfl⟩ := List.mem_replicate.mp inside
  rcases mem_wideFreqBlock here with rfl | rfl <;> decide

theorem wide_isPostings {n : Nat} (small : forBlockSize * n ≤ 2 ^ 32) :
    IsPostings (wideDocs n) (wideFreqs n) where
  aligned := by rw [wideDocs, List.length_range, wideFreqs_length]
  increasing := List.isChain_iff_pairwise.mpr List.pairwise_lt_range
  docs_fit d member := (List.mem_range.mp member).trans_le small
  freqs_fit f member := by
    obtain ⟨block, inside, here⟩ := List.mem_flatten.mp member
    obtain ⟨_, rfl⟩ := List.mem_replicate.mp inside
    rcases mem_wideFreqBlock here with rfl | rfl <;> decide

theorem wide_blockOffset_succ {n b : Nat} (small : forBlockSize * n ≤ 2 ^ 32) (inside : b < n) :
    blockOffset (wideDocs n) (wideFreqs n) b + 148 ≤
        blockOffset (wideDocs n) (wideFreqs n) (b + 1) ∧
      blockOffset (wideDocs n) (wideFreqs n) (b + 1) ≤
        blockOffset (wideDocs n) (wideFreqs n) b + 152 := by
  have below : forBlockSize * b < (wideDocs n).length := by
    rw [wideDocs, List.length_range]
    exact Nat.mul_lt_mul_of_pos_left inside forBlockSize_pos
  have start : forBlockSize * b < 2 ^ 32 := by
    rw [wideDocs, List.length_range] at below
    omega
  have least := writeVarintU32_length_pos (forBlockSize * b)
  have most := writeVarintU32_length_le (forBlockSize * b) 4 (start.trans (by decide))
  rw [blockOffset_succ (wide_isPostings small).aligned b below, blockDocs_wideDocs inside,
    blockDocs_wideFreqs inside, wide_block_length]
  omega

theorem wide_blockOffset_bounds {n : Nat} (small : forBlockSize * n ≤ 2 ^ 32) (b : Nat)
    (inside : b ≤ n) :
    148 * b ≤ blockOffset (wideDocs n) (wideFreqs n) b ∧
      blockOffset (wideDocs n) (wideFreqs n) b ≤ 152 * b := by
  induction b with
  | zero => exact ⟨Nat.zero_le _, (blockOffset_zero _ _).le⟩
  | succ b ih =>
    have step := wide_blockOffset_succ small (b := b) (by omega)
    have bounds := ih (by omega)
    omega

/-- The payload of `n` blocks ends where a further block would start. -/
theorem wide_payload_length {n : Nat} (small : forBlockSize * n ≤ 2 ^ 32) :
    (chunkPayload (postingsChunks (wideDocs n) (wideFreqs n))).length =
      blockOffset (wideDocs n) (wideFreqs n) n := by
  rw [blockOffset_last]
  rw [postingsChunks_length (wide_isPostings small).aligned, wideDocs, List.length_range]
  simp only [forBlockSize]
  omega

/-- The blocks of a longer term of the family start where those of a shorter one do. -/
theorem wide_blockOffset_eq {m n b : Nat} (inside_m : b ≤ m) (inside_n : b ≤ n) :
    blockOffset (wideDocs m) (wideFreqs m) b = blockOffset (wideDocs n) (wideFreqs n) b := by
  have chunks_eq : ∀ k, b ≤ k → (postingsChunks (wideDocs k) (wideFreqs k)).take b =
      (List.range b).map fun i => (List.range' (forBlockSize * i) 128, wideFreqBlock) := by
    intro k inside
    have aligned : (wideDocs k).length = (wideFreqs k).length := by
      rw [wideDocs, List.length_range, wideFreqs_length]
    apply List.ext_getElem?
    intro i
    by_cases early : i < b
    · have here : forBlockSize * i < (wideDocs k).length := by
        rw [wideDocs, List.length_range]
        exact Nat.mul_lt_mul_of_pos_left (by omega) forBlockSize_pos
      rw [List.getElem?_take_of_lt early, postingsChunks_getElem? aligned, if_pos here,
        blockDocs_wideDocs (by omega), blockDocs_wideFreqs (by omega), List.getElem?_map,
        List.getElem?_range early]
      rfl
    · rw [List.getElem?_eq_none (by rw [List.length_take]; omega),
        List.getElem?_eq_none (by rw [List.length_map, List.length_range]; omega)]
  rw [blockOffset, blockOffset, chunks_eq m inside_m, chunks_eq n inside_n]

/-- Some term of the family starts its last block below `2 ^ 32` and ends it just above. -/
theorem exists_wide_term : ∃ n, 0 < n ∧ forBlockSize * n ≤ 2 ^ 32 ∧
    2 ^ 32 ≤ (chunkPayload (postingsChunks (wideDocs n) (wideFreqs n))).length ∧
    blockOffset (wideDocs n) (wideFreqs n) (n - 1) < 2 ^ 32 ∧
    (chunkPayload (postingsChunks (wideDocs n) (wideFreqs n))).length < 2 ^ 32 + 152 := by
  obtain ⟨top, htop⟩ : ∃ top, top = 2 ^ 25 := ⟨_, rfl⟩
  have longest : forBlockSize * top ≤ 2 ^ 32 := by
    rw [htop]
    decide
  have passes : ∃ n, n ≤ top ∧ 2 ^ 32 ≤ blockOffset (wideDocs n) (wideFreqs n) n := by
    refine ⟨top, le_rfl, ?_⟩
    have := (wide_blockOffset_bounds longest top le_rfl).1
    omega
  classical
  obtain ⟨n, ⟨bound, wide⟩, least⟩ : ∃ n, (n ≤ top ∧
      2 ^ 32 ≤ blockOffset (wideDocs n) (wideFreqs n) n) ∧ ∀ m, m < n →
        ¬ (m ≤ top ∧ 2 ^ 32 ≤ blockOffset (wideDocs m) (wideFreqs m) m) :=
    ⟨Nat.find passes, Nat.find_spec passes, fun m => Nat.find_min passes⟩
  have positive : 0 < n := by
    by_contra zero
    have : n = 0 := by omega
    subst this
    rw [blockOffset_zero] at wide
    omega
  have small : forBlockSize * n ≤ 2 ^ 32 := (Nat.mul_le_mul_left _ bound).trans longest
  have whole := wide_payload_length small
  have before : blockOffset (wideDocs n) (wideFreqs n) (n - 1) < 2 ^ 32 := by
    have missed := least (n - 1) (by omega)
    rw [wide_blockOffset_eq (Nat.sub_le n 1) (le_refl (n - 1))]
    omega
  have step := (wide_blockOffset_succ small (b := n - 1) (by omega)).2
  rw [Nat.sub_add_cancel positive] at step
  exact ⟨n, positive, small, by omega, before, by omega⟩

end Surch.Postings
