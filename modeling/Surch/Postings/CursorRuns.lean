import Surch.Postings.DiskAgreement
import Surch.Postings.WideTerm

/-! Whole runs of the cursors: the same targets give the same postings with the same
frequencies, however the cursor was opened. -/
namespace Surch.Postings
open Surch.Lib Surch.Codec

variable {docIds freqs : List Nat}

def diskStep (cursor : DiskPostingsCursor) (target : Nat) :
    Option (Nat × Nat) × DiskPostingsCursor :=
  let (answer, cursor) := cursor.advanceTo target
  (answer.map fun docId => (docId, cursor.freq), cursor)

theorem diskStep_linearWalk (postings : IsPostings docIds freqs) {cursor : DiskPostingsCursor}
    (opened : Opened docIds freqs cursor) (cached : Cached docIds freqs cursor) (target : Nat) :
    (diskStep cursor target).1 =
        (linearWalk ((docIds.zip freqs).drop (consumed docIds cursor)) target).1 ∧
      (linearWalk ((docIds.zip freqs).drop (consumed docIds cursor)) target).2 =
        (docIds.zip freqs).drop (consumed docIds (diskStep cursor target).2) ∧
      Opened docIds freqs (diskStep cursor target).2 ∧
      Cached docIds freqs (diskStep cursor target).2 := by
  have aligned := postings.aligned
  have docs : (docIds.zip freqs).map Prod.fst = docIds := List.map_fst_zip aligned.le
  have size : (docIds.zip freqs).length = docIds.length := by
    rw [List.length_zip]
    omega
  obtain ⟨opened', cached', outcome⟩ := advanceToWithStatus_spec postings target opened cached
  obtain ⟨status, next, result⟩ : ∃ status next, cursor.advanceToWithStatus target = (status, next) :=
    ⟨_, _, rfl⟩
  rw [result] at opened' cached' outcome
  rw [linearWalk_drop, docs, entries_getElem? aligned]
  rcases outcome with ⟨all, exhausted, position⟩ | ⟨docId, found, answer, freq, position⟩
  · simp only at exhausted
    subst exhausted
    simp only [diskStep, DiskPostingsCursor.advanceTo, result, all, Option.map_none]
    refine ⟨by simp, ?_, opened', cached'⟩
    rw [position, List.drop_of_length_le (by omega), List.drop_of_length_le (by omega)]
  · simp only at answer freq
    subst answer
    simp only [diskStep, DiskPostingsCursor.advanceTo, result, Option.map_some, found,
      DiskPostingsCursor.freq, freq]
    exact ⟨trivial, by rw [position], opened', cached'⟩

theorem disk_run (postings : IsPostings docIds freqs) {cursor : DiskPostingsCursor}
    (opened : Opened docIds freqs cursor) (cached : Cached docIds freqs cursor)
    (targets : List Nat) :
    trace diskStep cursor targets =
        trace linearWalk ((docIds.zip freqs).drop (consumed docIds cursor)) targets ∧
      Cached docIds freqs (finalState diskStep cursor targets) := by
  induction targets generalizing cursor with
  | nil => exact ⟨rfl, cached⟩
  | cons target targets ih =>
    obtain ⟨same, moved, opened', cached'⟩ := diskStep_linearWalk postings opened cached target
    obtain ⟨rest, final⟩ := ih opened' cached'
    refine ⟨?_, final⟩
    rw [trace, trace, same, moved, rest]

theorem skipIter_start (ascending : docIds.Pairwise (· < ·)) (nonempty : docIds ≠ []) :
    ∃ iter, skipIter docIds = .ok (some iter) ∧ Lags docIds 0 iter 0 := by
  obtain ⟨skipList, built, wellFormed, bottom⟩ := skipIter_ok ascending nonempty
  exact ⟨_, built, rfl, wellFormed, bottom, Nat.zero_le _, le_rfl,
    fun i _ high => absurd high (Nat.not_lt_zero i), Nat.zero_le _,
    fun b early => absurd early (Nat.not_lt_zero b)⟩

theorem ram_run (postings : IsPostings docIds freqs) (nonempty : docIds ≠ []) (targets : List Nat)
    (ordered : targets.IsChain (· ≤ ·)) :
    ∃ iter, skipIter docIds = .ok (some iter) ∧
      trace (ramStep freqs) iter targets = trace linearWalk (docIds.zip freqs) targets := by
  have ascending : docIds.Pairwise (· < ·) := List.isChain_iff_pairwise.mp postings.increasing
  obtain ⟨iter, built, start⟩ := skipIter_start ascending nonempty
  refine ⟨iter, built, ?_⟩
  have simulation := trace_eq_of_relation (ramStep freqs) linearWalk (· ≤ ·)
    (fun last iter rest => ∃ p, rest = (docIds.zip freqs).drop p ∧ Lags docIds last iter p)
    (by
      rintro last target iter rest ⟨p, rfl, lags⟩ later
      obtain ⟨same, p', moved, next⟩ := ramStep_linearWalk postings.aligned ascending lags later
      exact ⟨same, p', moved, next⟩)
    ⟨0, rfl, start⟩ targets (by cases targets with
      | nil => exact List.isChain_singleton 0
      | cons target targets => exact List.isChain_cons_cons.mpr ⟨Nat.zero_le _, ordered⟩)
  exact simulation.1

/-- A cursor opened with the written directory serves the postings from the start. -/
theorem opened_start {segment : PostingsSegment} {base : Nat}
    (holds : segment.Holds base (chunkPayload (postingsChunks docIds freqs)))
    (readable : ∀ offset length, segment.device.reads offset length = true)
    (fits : (chunkPayload (postingsChunks docIds freqs)).length < 2 ^ 32) (blocksRead : Nat) :
    let cursor : DiskPostingsCursor :=
      { segment, termBaseOffset := base
        termPayloadLen := (chunkPayload (postingsChunks docIds freqs)).length
        directory := chunkDirectory 0 (postingsChunks docIds freqs)
        blockCursor := 0
        cache := { loaded := none, localPos := 0, blocksRead, decoded := [] }
        lastFreq := 0, totalCount := docIds.length }
    Opened docIds freqs cursor ∧ Cached docIds freqs cursor ∧ consumed docIds cursor = 0 := by
  refine ⟨⟨rfl, rfl, fits, holds, readable⟩, ⟨Nat.zero_le _, ?_, List.nodup_nil, ?_⟩, ?_⟩
  · intro b docs fs loaded
    cases loaded
  · intro b member
    cases member
  · simp [consumed]

theorem payload_ne_nil (aligned : docIds.length = freqs.length) (nonempty : docIds ≠ []) :
    chunkPayload (postingsChunks docIds freqs) ≠ [] := by
  have size := two_le_block_length (docIds.take forBlockSize) (freqs.take forBlockSize)
  rw [postingsChunks_cons aligned nonempty, chunkPayload_cons, ← List.length_pos_iff,
    List.length_append]
  simp only
  omega

theorem decodeChecked_payload (postings : IsPostings docIds freqs) :
    decodePostingsPayloadChecked (chunkPayload (postingsChunks docIds freqs)) docIds.length =
      .ok (docIds, freqs) := by
  obtain ⟨output, encoded, payload, _⟩ :=
    encodeWithDirectory_ok postings.aligned postings.increasing
  rw [decodePostingsPayloadChecked, decode_payload postings]
  simp only [encodePostingsBlocked, encoded, Except.map, payload]
  exact if_neg fun different => different rfl

theorem open_payload (postings : IsPostings docIds freqs) (nonempty : docIds ≠ [])
    {segment : PostingsSegment} {base : Nat}
    (holds : segment.Holds base (chunkPayload (postingsChunks docIds freqs)))
    (readable : ∀ offset length, segment.device.reads offset length = true) :
    DiskPostingsCursor.open segment base (chunkPayload (postingsChunks docIds freqs)).length
        docIds.length =
      some (DiskPostingsCursor.openRecomputed segment base
        (chunkPayload (postingsChunks docIds freqs)).length
        (chunkDirectory 0 (postingsChunks docIds freqs)) docIds.length) := by
  have read := holds.read (payload_ne_nil postings.aligned nonempty) readable
  rw [DiskPostingsCursor.open, read]
  simp only [Option.bind_eq_bind, Option.bind_some, blockDirectory_payload postings]

theorem openChecked_payload (postings : IsPostings docIds freqs) (nonempty : docIds ≠ [])
    {segment : PostingsSegment} {base : Nat}
    (holds : segment.Holds base (chunkPayload (postingsChunks docIds freqs)))
    (readable : ∀ offset length, segment.device.reads offset length = true) :
    DiskPostingsCursor.openChecked segment base (chunkPayload (postingsChunks docIds freqs)).length
        docIds.length =
      .ok (DiskPostingsCursor.openRecomputed segment base
        (chunkPayload (postingsChunks docIds freqs)).length
        (chunkDirectory 0 (postingsChunks docIds freqs)) docIds.length) := by
  have read := holds.readChecked (payload_ne_nil postings.aligned nonempty) readable
  obtain ⟨output, encoded, payload, _⟩ :=
    encodeWithDirectory_ok postings.aligned postings.increasing
  have directory := blockDirectory_payload postings
  unfold chunkPayload at directory
  rw [DiskPostingsCursor.openChecked, read]
  simp only [decodeChecked_payload postings, bind, Except.bind, encodePostingsBlocked, encoded,
    Except.map, payload, directory]

/-- All cursors over a term's postings agree with the linear walk on every ascending list of
targets, frequencies included, and the disk cursors decode no block twice. -/
theorem cursors_agree (docIds freqs : List Nat) (postings : IsPostings docIds freqs)
    (nonempty : docIds ≠ []) (output : BlockedEncodeOutput)
    (encoded : encodePostingsBlockedWithDirectory docIds freqs = .ok output)
    (short : output.payload.length < 2 ^ 32) (segment : PostingsSegment) (base : Nat)
    (holds : segment.Holds base output.payload)
    (readable : ∀ offset length, segment.device.reads offset length = true)
    (targets : List Nat) (ordered : targets.IsChain (· ≤ ·)) :
    let walk := trace linearWalk (docIds.zip freqs) targets
    let agrees := fun cursor : DiskPostingsCursor => trace diskStep cursor targets = walk ∧
      (finalState diskStep cursor targets).cache.decoded.Nodup
    (∃ iter, skipIter docIds = .ok (some iter) ∧ trace (ramStep freqs) iter targets = walk) ∧
      agrees (DiskPostingsCursor.openWithDirectory segment base output.payload.length
        output.directory docIds.length) ∧
      (∃ cursor, DiskPostingsCursor.open segment base output.payload.length docIds.length =
        some cursor ∧ agrees cursor) ∧
      (∃ cursor, DiskPostingsCursor.openChecked segment base output.payload.length docIds.length =
        .ok cursor ∧ agrees cursor) := by
  obtain ⟨output', encoded', payload, directory⟩ :=
    encodeWithDirectory_ok postings.aligned postings.increasing
  rw [encoded] at encoded'
  cases encoded'
  rw [payload] at holds short ⊢
  rw [directory]
  have run : ∀ cursor, Opened docIds freqs cursor → Cached docIds freqs cursor →
      consumed docIds cursor = 0 →
      trace diskStep cursor targets = trace linearWalk (docIds.zip freqs) targets ∧
        (finalState diskStep cursor targets).cache.decoded.Nodup := by
    intro cursor opened cached start
    obtain ⟨same, final⟩ := disk_run postings opened cached targets
    rw [start, List.drop_zero] at same
    exact ⟨same, final.once⟩
  have fresh := fun blocksRead => opened_start holds readable short blocksRead
  refine ⟨ram_run postings nonempty targets ordered, ?_, ?_, ?_⟩
  · exact run _ (fresh 0).1 (fresh 0).2.1 (fresh 0).2.2
  · exact ⟨_, open_payload postings nonempty holds readable,
      run _ (fresh _).1 (fresh _).2.1 (fresh _).2.2⟩
  · exact ⟨_, openChecked_payload postings nonempty holds readable,
      run _ (fresh _).1 (fresh _).2.1 (fresh _).2.2⟩

/-- The theorem at two postings of one block, with a target past the last one. -/
theorem cursors_agree_two_postings :
    ∃ output segment iter, encodePostingsBlockedWithDirectory [3, 7] [1, 2] = .ok output ∧
      segment.Holds 0 output.payload ∧ skipIter [3, 7] = .ok (some iter) ∧
      trace (ramStep [1, 2]) iter [0, 5, 9] = trace linearWalk [(3, 1), (7, 2)] [0, 5, 9] ∧
      trace diskStep (DiskPostingsCursor.openWithDirectory segment 0 output.payload.length
        output.directory 2) [0, 5, 9] = trace linearWalk [(3, 1), (7, 2)] [0, 5, 9] := by
  have postings : IsPostings [3, 7] [1, 2] :=
    ⟨rfl, by decide, by decide, by decide⟩
  obtain ⟨output, encoded, payload, _⟩ :=
    encodeWithDirectory_ok postings.aligned postings.increasing
  have short : output.payload.length < 2 ^ 32 := by
    rw [payload]
    decide +kernel
  obtain ⟨holds, readable⟩ := freshSegment_holds output.payload (short.trans (by decide))
  obtain ⟨⟨iter, built, ram⟩, disk, _⟩ := cursors_agree [3, 7] [1, 2] postings (by decide) output
    encoded short _ 0 holds readable [0, 5, 9] (by decide)
  exact ⟨output, _, iter, encoded, holds, built, ram, disk.1⟩

theorem advance_past_truncated {n : Nat} (positive : 0 < n) (small : forBlockSize * n ≤ 2 ^ 32)
    (before : blockOffset (wideDocs n) (wideFreqs n) (n - 1) < 2 ^ 32) {payloadLen : Nat}
    (cut : payloadLen < blockOffset (wideDocs n) (wideFreqs n) (n - 1))
    {cursor : DiskPostingsCursor}
    (directory : cursor.directory = chunkDirectory 0 (postingsChunks (wideDocs n) (wideFreqs n)))
    (length : cursor.termPayloadLen = payloadLen) (unloaded : cursor.cache.loaded = none)
    (inside : cursor.blockCursor < n) :
    (cursor.advanceToWithStatus (forBlockSize * n - 1)).1 = .error := by
  have aligned := (wide_isPostings small).aligned
  have size : (wideDocs n).length = forBlockSize * n := List.length_range
  obtain ⟨left, hleft⟩ : ∃ left, left = n - 1 - cursor.blockCursor := ⟨_, rfl⟩
  induction left generalizing cursor with
  | zero =>
    have last : n - 1 = cursor.blockCursor := by omega
    rw [last] at before cut
    have here : forBlockSize * cursor.blockCursor < (wideDocs n).length := by
      rw [size]
      exact Nat.mul_lt_mul_of_pos_left inside forBlockSize_pos
    have beyond : ¬ forBlockSize * (cursor.blockCursor + 1) < (wideDocs n).length := by
      rw [size, ← last, Nat.sub_add_cancel positive]
      exact lt_irrefl _
    have current := chunkDirectory_entry aligned cursor.blockCursor
    rw [← directory, if_pos here, Nat.mod_eq_of_lt before, blockDocs_wideDocs inside] at current
    have no_next := chunkDirectory_entry aligned (cursor.blockCursor + 1)
    rw [← directory, if_neg beyond] at no_next
    have maximum : (List.range' (forBlockSize * cursor.blockCursor) 128).getLastD 0 =
        forBlockSize * n - 1 := by
      rw [List.getLastD_eq_getLast?, List.getLast?_range']
      simp only [forBlockSize, Nat.reduceEqDiff, if_false, Option.getD_some]
      omega
    have refused : cursor.load
        { byteOffsetInTermPayload := blockOffset (wideDocs n) (wideFreqs n) cursor.blockCursor
          count := (List.range' (forBlockSize * cursor.blockCursor) 128).length
          maxDocId := (List.range' (forBlockSize * cursor.blockCursor) 128).getLastD 0 } =
        (false, cursor.cache) := by
      rw [DiskPostingsCursor.load, DiskPostingsCursor.blockEnd, no_next]
      simp only [length]
      rw [if_pos cut]
    rw [DiskPostingsCursor.advanceToWithStatus]
    split
    · rename_i missing
      rw [current] at missing
      cases missing
    · rename_i entry found
      rw [current] at found
      cases found
      rw [if_neg (by rw [maximum]; exact lt_irrefl _), DiskPostingsCursor.currentBlock, unloaded,
        Option.map_none, if_neg (by simp), refused]
      rfl
  | succ left ih =>
    have earlier : cursor.blockCursor < n - 1 := by omega
    have here : forBlockSize * cursor.blockCursor < (wideDocs n).length := by
      rw [size]
      exact Nat.mul_lt_mul_of_pos_left (by omega) forBlockSize_pos
    have current := chunkDirectory_entry aligned cursor.blockCursor
    rw [← directory, if_pos here, blockDocs_wideDocs inside] at current
    have maximum : (List.range' (forBlockSize * cursor.blockCursor) 128).getLastD 0 <
        forBlockSize * n - 1 := by
      rw [List.getLastD_eq_getLast?, List.getLast?_range']
      simp only [forBlockSize, Nat.reduceEqDiff, if_false, Option.getD_some]
      omega
    rw [DiskPostingsCursor.advanceToWithStatus]
    split
    · rename_i missing
      rw [current] at missing
      cases missing
    · rename_i entry found
      rw [current] at found
      cases found
      rw [if_pos maximum]
      exact ih directory length unloaded (by simp only; omega) (by simp only; omega)

/-- The length of a payload is stored in 32 bits. A term of `2 ^ 32` payload bytes or more is
therefore answered differently by its disk cursor. -/
theorem cursors_disagree_on_wide_payload :
    ∃ (docIds freqs : List Nat) (output : BlockedEncodeOutput) (segment : PostingsSegment)
      (target : Nat), IsPostings docIds freqs ∧ docIds ≠ [] ∧
      encodePostingsBlockedWithDirectory docIds freqs = .ok output ∧
      segment.Holds 0 output.payload ∧
      (∀ offset length, segment.device.reads offset length = true) ∧
      trace diskStep (DiskPostingsCursor.openWithDirectory segment 0
          (output.payload.length % 2 ^ 32) output.directory docIds.length) [target] ≠
        trace linearWalk (docIds.zip freqs) [target] := by
  obtain ⟨n, positive, small, wide, before, narrow⟩ := exists_wide_term
  have postings := wide_isPostings small
  have size : (wideDocs n).length = forBlockSize * n := List.length_range
  have many : 0 < forBlockSize * n := Nat.mul_pos forBlockSize_pos positive
  obtain ⟨output, encoded, payload, directory⟩ :=
    encodeWithDirectory_ok postings.aligned postings.increasing
  change output.payload = chunkPayload _ at payload
  obtain ⟨holds, readable⟩ := freshSegment_holds output.payload (by rw [payload]; omega)
  refine ⟨wideDocs n, wideFreqs n, output, freshSegment output.payload, forBlockSize * n - 1,
    postings, ?_, encoded, holds, readable, ?_⟩
  · rw [← List.length_pos_iff, size]
    exact many
  · have step := (wide_blockOffset_succ small (b := n - 1) (by omega)).2
    rw [Nat.sub_add_cancel positive, blockOffset_last n (by
      rw [postingsChunks_length postings.aligned, size]
      simp only [forBlockSize]
      omega)] at step
    have cut : output.payload.length % 2 ^ 32 < blockOffset (wideDocs n) (wideFreqs n) (n - 1) := by
      rw [payload]
      omega
    have failed : ((DiskPostingsCursor.openWithDirectory (freshSegment output.payload) 0
        (output.payload.length % 2 ^ 32) output.directory
        (wideDocs n).length).advanceToWithStatus (forBlockSize * n - 1)).1 = .error :=
      advance_past_truncated positive small before cut directory rfl rfl positive
    have found : (linearWalk ((wideDocs n).zip (wideFreqs n)) (forBlockSize * n - 1)).1 ≠ none := by
      have walked := linearWalk_drop ((wideDocs n).zip (wideFreqs n)) (forBlockSize * n - 1) 0
      rw [List.drop_zero, List.map_fst_zip postings.aligned.le] at walked
      rw [walked, entries_getElem? postings.aligned]
      have hit : firstFrom (wideDocs n) (forBlockSize * n - 1) 0 = forBlockSize * n - 1 := by
        refine eq_firstFrom _ _ (Nat.zero_le _) (by omega) ?_ ?_
        · intro i _ early inside
          rw [show (wideDocs n)[i] = i from List.getElem_range inside]
          exact early
        · intro inside
          exact (List.getElem_range inside).ge
      rw [hit, List.getElem?_eq_getElem (by omega)]
      simp
    intro same
    rw [trace, trace, trace, trace] at same
    have head := List.head_eq_of_cons_eq same
    rw [diskStep, DiskPostingsCursor.advanceTo] at head
    apply found
    rw [← head]
    revert failed
    cases DiskPostingsCursor.advanceToWithStatus _ _ with
    | mk status cursor =>
      intro failed
      simp only at failed
      subst failed
      rfl

end Surch.Postings
