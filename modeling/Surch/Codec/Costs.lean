import Surch.Codec.Directory

/-! The planner predicts exactly what the writer emits, so that a payload outgrows the plain varint
format by at most the header of each block. -/
namespace Surch.Codec
open Surch.Lib

theorem writeVarintU32_length (value : Nat) (fits : value < 2 ^ 32) :
    (writeVarintU32 value).length = varintLenForBits (bitWidth value) := by
  have more : ∀ v, 128 ≤ v → (writeVarintU32 v).length = (writeVarintU32 (v / 128)).length + 1 := by
    intro v large
    rw [writeVarintU32_large large, List.length_cons]
  have last : ∀ v, v < 128 → (writeVarintU32 v).length = 1 := by
    intro v small
    rw [writeVarintU32_small small]
    rfl
  have seven := bitWidth_le_iff value 7
  have fourteen := bitWidth_le_iff value 14
  have twenty_one := bitWidth_le_iff value 21
  have twenty_eight := bitWidth_le_iff value 28
  unfold varintLenForBits
  split
  · exact last value (by omega)
  · rw [more value (by omega)]
    split
    · rw [last _ (by omega)]
    · rw [more _ (by omega)]
      split
      · rw [last _ (by omega)]
      · rw [more _ (by omega)]
        split
        · rw [last _ (by omega)]
        · rw [more _ (by omega), last _ (by omega)]

theorem flatMap_varint_cost (values : List Nat) (fits : ∀ v ∈ values, v < 2 ^ 32) :
    (values.flatMap writeVarintU32).length =
      (values.map fun v => varintLenForBits (bitWidth v)).sum := by
  induction values with
  | nil => rfl
  | cons v values ih =>
    have head := writeVarintU32_length v (fits v List.mem_cons_self)
    have tail := ih fun x member => fits x (List.mem_cons_of_mem _ member)
    rw [List.flatMap_cons, List.length_append, List.map_cons, List.sum_cons, head, tail]

def exceptionBytes (deltas : List Nat) (among : Nat → Prop) [DecidablePred among] : Nat :=
  (deltas.map fun d => if among d then 1 + varintLenForBits (bitWidth d) else 0).sum

theorem exceptionBytes_cons (d : Nat) (deltas : List Nat) (among : Nat → Prop) [DecidablePred among] :
    exceptionBytes (d :: deltas) among =
      (if among d then 1 + varintLenForBits (bitWidth d) else 0) + exceptionBytes deltas among := by
  rw [exceptionBytes, List.map_cons, List.sum_cons, exceptionBytes]

theorem exceptionBytes_width (deltas : List Nat) (bits : Nat) :
    exceptionBytes deltas (fun d => bitWidth d = bits) =
      (deltas.countP fun d => bitWidth d = bits) * (1 + varintLenForBits bits) := by
  induction deltas with
  | nil => simp [exceptionBytes]
  | cons d deltas ih =>
    simp only [exceptionBytes_cons, List.countP_cons, decide_eq_true_eq, ih]
    by_cases here : bitWidth d = bits
    · rw [if_pos here, if_pos here, here]
      ring
    · rw [if_neg here, if_neg here]
      ring

theorem exceptionBytes_split (deltas : List Nat) (start n : Nat) :
    exceptionBytes deltas (fun d => start ≤ bitWidth d ∧ bitWidth d < start + (n + 1)) =
      exceptionBytes deltas (fun d => bitWidth d = start) +
        exceptionBytes deltas (fun d => start + 1 ≤ bitWidth d ∧ bitWidth d < start + 1 + n) := by
  induction deltas with
  | nil => rfl
  | cons d deltas ih =>
    simp only [exceptionBytes_cons, ih]
    by_cases here : bitWidth d = start
    · rw [if_pos (by omega), if_pos here, if_neg (by omega)]
      omega
    · by_cases above : start + 1 ≤ bitWidth d ∧ bitWidth d < start + 1 + n
      · rw [if_pos (by omega), if_neg here, if_pos above]
        omega
      · rw [if_neg (by omega), if_neg here, if_neg above]
        omega

theorem exceptionCost_bytes (deltas : List Nat) (n start count cost : Nat)
    (room : start + n ≤ 33) :
    ((List.range' start n).foldl (fun (exceptions, exceptionBytes) bits =>
      let c := (deltaHistogram deltas).getD bits 0
      (exceptions + c, exceptionBytes + c * (1 + varintLenForBits bits))) (count, cost)).2 =
      cost + exceptionBytes deltas fun d => start ≤ bitWidth d ∧ bitWidth d < start + n := by
  induction n generalizing start count cost with
  | zero =>
    have nothing : exceptionBytes deltas
        (fun d => start ≤ bitWidth d ∧ bitWidth d < start + 0) = 0 := by
      apply List.sum_eq_zero
      intro x member
      obtain ⟨d, _, rfl⟩ := List.mem_map.mp member
      exact if_neg (by omega)
    rw [nothing]
    rfl
  | succ n ih =>
    rw [List.range'_succ, List.foldl_cons]
    simp only
    rw [ih _ _ _ (by omega), deltaHistogram_getD _ _ (by omega), exceptionBytes_split,
      exceptionBytes_width]
    omega

/-- The bytes counted from the histogram are those of the deltas wider than the candidate. -/
theorem exceptionCost_snd (deltas : List Nat) (width widthMax : Nat) (ordered : width ≤ widthMax)
    (bound : widthMax ≤ 32) (widest : ∀ d ∈ deltas, bitWidth d ≤ widthMax) :
    (exceptionCost (deltaHistogram deltas) width widthMax).2 =
      exceptionBytes deltas fun d => 2 ^ width ≤ d := by
  rw [exceptionCost, exceptionCost_bytes _ _ _ _ _ (by omega), Nat.zero_add, exceptionBytes,
    exceptionBytes]
  congr 1
  apply List.map_congr_left
  intro d member
  have narrow := widest d member
  have wide := lt_bitWidth_iff d width
  by_cases exceeds : 2 ^ width ≤ d
  · rw [if_pos exceeds, if_pos (by omega)]
  · rw [if_neg exceeds, if_neg (by omega)]

theorem exceptionsFrom_length (threshold index : Nat) (deltas : List Nat) :
    (exceptionsFrom threshold index deltas).length = deltas.countP fun d => threshold ≤ d := by
  induction deltas generalizing index with
  | nil => rfl
  | cons d deltas ih =>
    rw [exceptionsFrom, List.countP_cons]
    split
    · rename_i exceeds
      rw [List.length_cons, ih, if_pos (by simpa using exceeds)]
    · rename_i small
      rw [ih, if_neg (by simpa using small), Nat.add_zero]

theorem exceptionsFrom_bytes (threshold index : Nat) (deltas : List Nat)
    (fits : ∀ d ∈ deltas, d < 2 ^ 32) :
    ((exceptionsFrom threshold index deltas).flatMap writeException).length =
      exceptionBytes deltas fun d => threshold ≤ d := by
  induction deltas generalizing index with
  | nil => rfl
  | cons d deltas ih =>
    have tail := fun i => ih i fun x member => fits x (List.mem_cons_of_mem _ member)
    rw [exceptionsFrom, exceptionBytes_cons]
    split
    · rw [List.flatMap_cons, List.length_append, tail, writeException, List.length_cons,
        writeVarintU32_length d (fits d List.mem_cons_self)]
      omega
    · rw [tail, Nat.zero_add]

def planWithCost (histogram : List Nat) (deltaCount varintCost : Nat) : DocPlan × Nat :=
  if deltaCount = 0 then (.varint, varintCost)
  else
    match (List.range' 1 maxPackedWidth).reverse.find? fun w => histogram.getD w 0 > 0 with
    | none => (.varint, varintCost)
    | some widthMax =>
      let best :=
        (List.range' 1 (widthMax - 1)).foldl
          (fun (bestPlan, bestCost) width =>
            let (exceptions, exceptionBytes) := exceptionCost histogram width widthMax
            let cost := 2 + packedLen deltaCount width + exceptionBytes
            if cost < bestCost then (DocPlan.patched width exceptions, cost)
            else (bestPlan, bestCost))
          (DocPlan.varint, varintCost)
      let packedCost := 1 + packedLen deltaCount widthMax
      if packedCost < best.2 then (.packed widthMax, packedCost) else best

theorem planWithCost_fst (histogram : List Nat) (deltaCount varintCost : Nat) :
    (planWithCost histogram deltaCount varintCost).1 =
      planDocChannel histogram deltaCount varintCost := by
  unfold planWithCost planDocChannel
  split
  · rfl
  · cases (List.range' 1 maxPackedWidth).reverse.find? fun w => histogram.getD w 0 > 0 with
    | none => rfl
    | some widthMax =>
      dsimp only
      split <;> rfl

def docChannelCost (deltas : List Nat) : Nat :=
  (planWithCost (deltaHistogram deltas) deltas.length
    (deltas.map fun delta => varintLenForBits (bitWidth delta)).sum).2

section Channels

variable {deltas : List Nat}

theorem varint_channel_length (fits : ∀ d ∈ deltas, d < 2 ^ 32) :
    (writeDocChannel .varint deltas).length =
      (deltas.map fun delta => varintLenForBits (bitWidth delta)).sum :=
  flatMap_varint_cost deltas fits

theorem packed_channel_length {width : Nat} (positive : 1 ≤ width)
    (narrow : ∀ d ∈ deltas, d < 2 ^ width) :
    (writeDocChannel (.packed width) deltas).length = 1 + packedLen deltas.length width := by
  rw [writeDocChannel, List.length_cons, packBits_length deltas width narrow positive, Nat.add_comm]

theorem patched_channel_length {width exceptions : Nat} (positive : 1 ≤ width)
    (fits : ∀ d ∈ deltas, d < 2 ^ 32) :
    (writeDocChannel (.patched width exceptions) deltas).length =
      2 + packedLen deltas.length width + exceptionBytes deltas fun d => 2 ^ width ≤ d := by
  have zeroed : ∀ v ∈ deltas.map (fun d => if d ≥ 2 ^ width then 0 else d), v < 2 ^ width := by
    intro v member
    obtain ⟨d, _, rfl⟩ := List.mem_map.mp member
    split
    · exact Nat.two_pow_pos width
    · omega
  have packed := packBits_length _ width zeroed positive
  rw [List.length_map] at packed
  simp only [writeDocChannel, List.length_cons, List.length_append]
  rw [packed, exceptionsFrom_bytes _ _ _ fits]
  omega

def Priced (deltas : List Nat) (best : DocPlan × Nat) : Prop :=
  (writeDocChannel best.1 deltas).length = best.2 ∧
    best.2 ≤ (deltas.map fun delta => varintLenForBits (bitWidth delta)).sum

theorem planWithCost_priced (fits : ∀ d ∈ deltas, d < 2 ^ 32) :
    Priced deltas (planWithCost (deltaHistogram deltas) deltas.length
      (deltas.map fun delta => varintLenForBits (bitWidth delta)).sum) := by
  have plain : Priced deltas
      (.varint, (deltas.map fun delta => varintLenForBits (bitWidth delta)).sum) :=
    ⟨varint_channel_length fits, le_rfl⟩
  unfold planWithCost
  split
  · exact plain
  · split
    · exact plain
    · rename_i widthMax found
      have range := List.mem_of_find?_eq_some found
      simp only [List.mem_reverse, List.mem_range'_1, maxPackedWidth] at range
      have widest := bitWidth_le_of_find deltas widthMax fits found
      -- each candidate is priced by the exceptions the histogram shows
      have best : Priced deltas ((List.range' 1 (widthMax - 1)).foldl
          (fun (bestPlan, bestCost) width =>
            let (exceptions, exceptionBytes) := exceptionCost (deltaHistogram deltas) width widthMax
            let cost := 2 + packedLen deltas.length width + exceptionBytes
            if cost < bestCost then (DocPlan.patched width exceptions, cost)
            else (bestPlan, bestCost))
          (DocPlan.varint, (deltas.map fun delta => varintLenForBits (bitWidth delta)).sum)) := by
        apply List.foldlRecOn
        · exact plain
        · intro held priced width candidate
          rw [List.mem_range'_1] at candidate
          dsimp only
          split
          · rename_i cheaper
            constructor
            · rw [patched_channel_length (by omega) fits,
                exceptionCost_snd deltas width widthMax (by omega) (by omega) widest]
            · exact cheaper.le.trans priced.2
          · exact priced
      dsimp only
      split
      · rename_i cheaper
        constructor
        · apply packed_channel_length (by omega)
          intro d member
          exact (bitWidth_le_iff d widthMax).mp (widest d member)
        · exact cheaper.le.trans best.2
      · exact best

theorem docChannel_cost (fits : ∀ d ∈ deltas, d < 2 ^ 32) :
    (writeDocChannel (docPlan deltas) deltas).length = docChannelCost deltas := by
  have priced := (planWithCost_priced fits).1
  rwa [planWithCost_fst] at priced

theorem docChannel_le_varints (fits : ∀ d ∈ deltas, d < 2 ^ 32) :
    (writeDocChannel (docPlan deltas) deltas).length ≤ (deltas.flatMap writeVarintU32).length := by
  rw [docChannel_cost fits, flatMap_varint_cost deltas fits]
  exact (planWithCost_priced fits).2

theorem freqChannel_le_varints {freqs : List Nat} (nonempty : freqs ≠ [])
    (fits : ∀ f ∈ freqs, f < 2 ^ 32) :
    (writeFreqChannel (freqMode freqs) freqs).length ≤ (freqs.flatMap writeVarintU32).length := by
  unfold freqMode
  split
  · exact Nat.zero_le _
  · split
    · obtain ⟨freq, rest, rfl⟩ := List.exists_cons_of_ne_nil nonempty
      simp [writeFreqChannel]
    · split
      · exact le_rfl
      · rename_i dear
        have narrow : ∀ f ∈ freqs, f < 2 ^ freqWidth freqs := fun f member =>
          (bitWidth_le_iff f _).mp (bitWidth_le_freqWidth freqs f member)
        rw [writeFreqChannel, List.length_cons,
          packBits_length freqs _ narrow (by unfold freqWidth; omega), flatMap_varint_cost freqs fits]
        omega

end Channels

/- The format before blocks were packed: a varint for each delta, from zero at the start of a block,
and one for each frequency. -/
def legacyBlockLen (docChunk freqChunk : List Nat) : Nat :=
  (writeVarintU32 (docChunk.headD 0)).length + ((blockDeltas docChunk).flatMap writeVarintU32).length +
    (freqChunk.flatMap writeVarintU32).length

def legacyBlockedLen (docIds freqs : List Nat) : Nat :=
  ((postingsChunks docIds freqs).map fun chunk => legacyBlockLen chunk.1 chunk.2).sum

theorem block_le_legacy {docs freqs : List Nat} (block : IsBlock docs freqs) :
    (encodeBlockInto docs freqs).1.length ≤ legacyBlockLen docs freqs + 1 := by
  have freqs_nonempty : freqs ≠ [] := by
    rw [← List.length_pos_iff, ← block.aligned]
    exact List.length_pos_iff.mpr block.nonempty
  have doc_channel := docChannel_le_varints (blockDeltas_lt docs block.docs_fit)
  have freq_channel := freqChannel_le_varints freqs_nonempty block.freqs_fit
  simp only [encodeBlockInto, docIdPart, legacyBlockLen, List.length_append, List.length_cons]
  omega

theorem payload_le_legacy {docIds freqs : List Nat} (postings : IsPostings docIds freqs) :
    (chunkPayload (postingsChunks docIds freqs)).length ≤
      legacyBlockedLen docIds freqs + (postingsChunks docIds freqs).length := by
  induction docIds using chunks_induction forBlockSize_pos generalizing freqs with
  | nil => simp [postingsChunks]
  | step docIds nonempty ih =>
    have head := block_le_legacy (postings.firstBlock nonempty)
    have tail := ih (postings.drop forBlockSize)
    rw [legacyBlockedLen] at tail ⊢
    rw [postingsChunks_cons postings.aligned nonempty, chunkPayload_cons, List.length_append,
      List.map_cons, List.sum_cons, List.length_cons]
    dsimp only
    omega

/- The bytes of a block: header, first identifier, a doc channel of the predicted cost, frequencies. In a
patched channel the number of the exceptions stands behind the width, and they stand at the end. -/
def CostsPredicted (docs freqs : List Nat) (block : List UInt8) : Prop :=
  ∃ (header : UInt8) (channel : List UInt8),
    block = header ::
      (writeVarintU32 (docs.headD 0) ++ channel ++ writeFreqChannel (freqMode freqs) freqs) ∧
    header &&& 0x03 = (docPlan (blockDeltas docs)).docMode ∧
    channel.length = docChannelCost (blockDeltas docs) ∧
    ∀ width exceptions, docPlan (blockDeltas docs) = .patched width exceptions →
      ∃ (count : UInt8) (packed : List UInt8) (entries : List (Nat × Nat)),
        channel = UInt8.ofNat width :: count :: (packed ++ entries.flatMap writeException) ∧
        packed.length = packedLen (blockDeltas docs).length width ∧
        count.toNat = entries.length ∧
        entries.map Prod.snd = (blockDeltas docs).filter fun delta => 2 ^ width ≤ delta

theorem exceptionsFrom_values (threshold index : Nat) (deltas : List Nat) :
    (exceptionsFrom threshold index deltas).map Prod.snd =
      deltas.filter fun delta => threshold ≤ delta := by
  induction deltas generalizing index with
  | nil => rfl
  | cons d deltas ih =>
    rw [exceptionsFrom]
    split
    · rename_i exceeds
      rw [List.map_cons, ih, List.filter_cons_of_pos (by simpa using exceeds)]
    · rename_i small
      rw [ih, List.filter_cons_of_neg (by simpa using small)]

theorem block_costs {docs freqs : List Nat} (block : IsBlock docs freqs) :
    CostsPredicted docs freqs (encodeBlockInto docs freqs).1 := by
  have fits := blockDeltas_lt docs block.docs_fit
  refine ⟨_, writeDocChannel (docPlan (blockDeltas docs)) (blockDeltas docs), rfl,
    header_docMode _ _, docChannel_cost fits, ?_⟩
  intro width exceptions planned
  have suits := docPlan_suits _ fits
  rw [planned] at suits ⊢
  obtain ⟨positive, _, _, counted⟩ := suits
  have zeroed : ∀ v ∈ (blockDeltas docs).map (fun d => if d ≥ 2 ^ width then 0 else d),
      v < 2 ^ width := by
    intro v member
    obtain ⟨d, _, rfl⟩ := List.mem_map.mp member
    split
    · exact Nat.two_pow_pos width
    · omega
  have packed := packBits_length _ width zeroed positive
  rw [List.length_map] at packed
  have few : exceptions ≤ (blockDeltas docs).length := counted ▸ List.countP_le_length
  have short : (blockDeltas docs).length < 256 := by
    have size : docs.length ≤ 128 := block.short
    rw [blockDeltas_length]
    omega
  refine ⟨_, _, exceptionsFrom (2 ^ width) 0 (blockDeltas docs), rfl, packed, ?_,
    exceptionsFrom_values _ _ _⟩
  rw [exceptionsFrom_length, UInt8.toNat_ofNat', ← counted]
  omega

/-- The payload is its blocks, one after the other. Each takes for its identifiers what was predicted, its
exceptions are the deltas that exceed the width, and the whole outgrows plain varints by one byte a block
at most. -/
theorem exact_cost_planning (docIds freqs : List Nat) (aligned : docIds.length = freqs.length)
    (increasing : docIds.Pairwise (· < ·)) (docs_fit : ∀ d ∈ docIds, d < 2 ^ 32)
    (freqs_fit : ∀ f ∈ freqs, f < 2 ^ 32) :
    ∃ (output : BlockedEncodeOutput) (blocks : List (List UInt8)),
      encodePostingsBlockedWithDirectory docIds freqs = .ok output ∧
      output.payload = blocks.flatten ∧
      blocks.length = (docIds.length + forBlockSize - 1) / forBlockSize ∧
      output.directory.length = blocks.length ∧
      (∀ b block, blocks[b]? = some block →
        CostsPredicted (blockDocs docIds b) (blockDocs freqs b) block ∧
        ∃ entry, output.directory[b]? = some entry ∧
          entry.byteOffsetInTermPayload = (blocks.take b).flatten.length % 2 ^ 32) ∧
      output.payload.length ≤ legacyBlockedLen docIds freqs + blocks.length := by
  have postings : IsPostings docIds freqs :=
    ⟨aligned, List.isChain_iff_pairwise.mpr increasing, docs_fit, freqs_fit⟩
  obtain ⟨output, encoded, payload, directory⟩ := encodeWithDirectory_ok aligned postings.increasing
  refine ⟨output, (postingsChunks docIds freqs).map fun chunk => (encodeBlockInto chunk.1 chunk.2).1,
    encoded, ?_, ?_, ?_, ?_, ?_⟩
  · rw [payload, List.flatMap_def]
  · rw [List.length_map, postingsChunks_length aligned]
  · rw [directory, chunkDirectory_length, List.length_map]
  · intro b block here
    rw [List.getElem?_map, postingsChunks_getElem? aligned] at here
    split at here
    · rename_i inside
      cases here
      refine ⟨block_costs (isBlock_of_postings postings b inside), ?_⟩
      rw [directory, chunkDirectory_entry aligned, if_pos inside, ← List.map_take, ← List.flatMap_def]
      exact ⟨_, rfl, rfl⟩
    · cases here
  · rw [payload, List.length_map]
    exact payload_le_legacy postings

/-- A block whose widest delta is an exception: a bit for each of the nine deltas, and the one value. -/
theorem exact_cost_planning_exception :
    ∃ (output : BlockedEncodeOutput) (header : UInt8) (packed : List UInt8)
      (entries : List (Nat × Nat)),
      encodePostingsBlockedWithDirectory [1, 2, 3, 4, 5, 6, 7, 8, 9, 1000000]
        [1, 1, 1, 1, 1, 1, 1, 1, 1, 1] = .ok output ∧
      output.payload = header :: (writeVarintU32 1 ++
        (1 :: 1 :: (packed ++ entries.flatMap writeException)) ++ []) ∧
      packed.length = 2 ∧ entries.map Prod.snd = [999991] := by
  obtain ⟨output, blocks, encoded, payload, count, -, each, -⟩ :=
    exact_cost_planning [1, 2, 3, 4, 5, 6, 7, 8, 9, 1000000] [1, 1, 1, 1, 1, 1, 1, 1, 1, 1]
      (by decide) (by decide) (by decide) (by decide)
  obtain ⟨block, rfl⟩ := List.length_eq_one_iff.mp count
  obtain ⟨⟨header, channel, written, -, -, patched⟩, -⟩ := each 0 block rfl
  obtain ⟨exceptions, packed, entries, rfl, bits, counted, values⟩ :=
    patched 1 1 (by decide +kernel)
  have one : exceptions.toNat = 1 := by
    have values_length := congrArg List.length values
    rw [List.length_map] at values_length
    rw [counted, values_length]
    decide +kernel
  obtain rfl : exceptions = 1 := UInt8.toNat_inj.mp one
  refine ⟨output, header, packed, entries, encoded, ?_, bits, values⟩
  rw [payload, List.flatten_singleton, written]
  rfl

end Surch.Codec
