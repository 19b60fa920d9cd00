import Surch.Postings.CursorAgreement

/-! The disk cursor against the linear walk. The cursor consumes exactly what the walk
consumes, so its position in the whole list is a function of its state. -/
namespace Surch.Postings
open Surch.Lib Surch.Codec

variable {docIds freqs : List Nat}

/-- The cursor is open on the encoded payload of the postings, with their directory. -/
structure Opened (docIds freqs : List Nat) (cursor : DiskPostingsCursor) : Prop where
  directory : cursor.directory = chunkDirectory 0 (postingsChunks docIds freqs)
  payloadLen : cursor.termPayloadLen = (chunkPayload (postingsChunks docIds freqs)).length
  fits : (chunkPayload (postingsChunks docIds freqs)).length < 2 ^ 32
  holds : cursor.segment.Holds cursor.termBaseOffset (chunkPayload (postingsChunks docIds freqs))
  readable : ∀ offset length, cursor.segment.device.reads offset length = true

/-- The cached block is the one it claims to be, and nothing was decoded twice. -/
structure Cached (docIds freqs : List Nat) (cursor : DiskPostingsCursor) : Prop where
  bounded : cursor.blockCursor ≤ (postingsChunks docIds freqs).length
  block : ∀ b docs fs, cursor.cache.loaded = some (b, docs, fs) → b ≤ cursor.blockCursor ∧
    (b = cursor.blockCursor → forBlockSize * b < docIds.length ∧ docs = blockDocs docIds b ∧
      fs = blockDocs freqs b ∧ cursor.cache.localPos ≤ docs.length)
  once : cursor.cache.decoded.Nodup
  recent : ∀ b ∈ cursor.cache.decoded, b ≤ cursor.blockCursor ∧
    (b = cursor.blockCursor → cursor.cache.loaded.map (·.1) = some b)

def consumed (docIds : List Nat) (cursor : DiskPostingsCursor) : Nat :=
  if cursor.cache.loaded.map (·.1) = some cursor.blockCursor then
    forBlockSize * cursor.blockCursor + cursor.cache.localPos
  else min (forBlockSize * cursor.blockCursor) docIds.length

theorem directory_entry (postings : IsPostings docIds freqs) {cursor : DiskPostingsCursor}
    (opened : Opened docIds freqs cursor) (b : Nat) :
    cursor.directory[b]? =
      if forBlockSize * b < docIds.length then
        some { byteOffsetInTermPayload := blockOffset docIds freqs b
               count := (blockDocs docIds b).length
               maxDocId := (blockDocs docIds b).getLastD 0 }
      else none := by
  have small : blockOffset docIds freqs b < 2 ^ 32 :=
    (blockOffset_le docIds freqs b).trans_lt opened.fits
  rw [opened.directory, chunkDirectory_entry postings.aligned, Nat.mod_eq_of_lt small]

theorem blockEnd_eq (postings : IsPostings docIds freqs) {cursor : DiskPostingsCursor}
    (opened : Opened docIds freqs cursor) :
    cursor.blockEnd = blockOffset docIds freqs (cursor.blockCursor + 1) := by
  rw [DiskPostingsCursor.blockEnd, directory_entry postings opened]
  split
  · rename_i next found
    split at found
    · cases found
      rfl
    · cases found
  · rename_i missing
    split at missing
    · cases missing
    · rename_i outside
      rw [opened.payloadLen, blockOffset_last]
      rw [← Nat.not_lt, lt_postingsChunks_length postings.aligned]
      exact outside

theorem isChain_iff_windows (docs : List Nat) :
    ((windows2 docs).all fun pair => pair.1 < pair.2) = true ↔ docs.IsChain (· < ·) := by
  have windows := windows2_all_iff (fun a b => decide (a < b)) docs
  simpa only [decide_eq_true_eq] using windows

theorem encoded_block_matches (postings : IsPostings docIds freqs) {cursor : DiskPostingsCursor}
    (opened : Opened docIds freqs cursor) {entry : BlockDirEntry}
    (inside : forBlockSize * cursor.blockCursor < docIds.length)
    (current : cursor.directory[cursor.blockCursor]? = some entry) :
    cursor.decodedBlockMatchesDirectory entry (blockDocs docIds cursor.blockCursor)
      (blockDocs freqs cursor.blockCursor) = true := by
  have block := isBlock_of_postings postings cursor.blockCursor inside
  have ascending : docIds.Pairwise (· < ·) := List.isChain_iff_pairwise.mp postings.increasing
  rw [directory_entry postings opened, if_pos inside] at current
  cases current
  obtain ⟨first, rest, shape⟩ := List.exists_cons_of_ne_nil block.nonempty
  have first_at := blockDocs_headD docIds cursor.blockCursor inside
  have last : (blockDocs docIds cursor.blockCursor).getLast? =
      some ((blockDocs docIds cursor.blockCursor).getLastD 0) := by
    rw [List.getLastD_eq_getLast?, List.getLast?_eq_some_getLast block.nonempty, Option.getD_some]
  have windows := (isChain_iff_windows _).mpr block.increasing
  unfold DiskPostingsCursor.decodedBlockMatchesDirectory
  have head : (blockDocs docIds cursor.blockCursor).head? =
      some ((blockDocs docIds cursor.blockCursor).headD 0) := by
    rw [shape]
    rfl
  rw [head]
  simp only [Bool.and_eq_true, beq_self_eq_true, last, windows, block.aligned, and_true, true_and]
  split
  · rfl
  · rename_i later
    have before : forBlockSize * (cursor.blockCursor - 1) < docIds.length := by
      simp only [forBlockSize] at inside ⊢
      omega
    rw [directory_entry postings opened, if_pos before, Option.all_some, decide_eq_true_eq]
    have previous := blockDocs_getLastD docIds (cursor.blockCursor - 1) before
    rw [Nat.sub_add_cancel (by omega)] at previous
    apply lt_of_getElem? ascending previous.symm first_at
    simp only [forBlockSize] at inside ⊢
    omega

theorem load_spec (postings : IsPostings docIds freqs) {cursor : DiskPostingsCursor}
    (opened : Opened docIds freqs cursor) {entry : BlockDirEntry}
    (inside : forBlockSize * cursor.blockCursor < docIds.length)
    (current : cursor.directory[cursor.blockCursor]? = some entry) :
    cursor.load entry = (true,
      { loaded := some (cursor.blockCursor, blockDocs docIds cursor.blockCursor,
          blockDocs freqs cursor.blockCursor)
        localPos := 0
        blocksRead := min (cursor.cache.blocksRead + 1) (2 ^ 64 - 1)
        decoded := cursor.cache.decoded ++ [cursor.blockCursor] }) := by
  have confirmed := encoded_block_matches postings opened inside current
  have ending := blockEnd_eq postings opened
  have grown := blockOffset_succ postings.aligned cursor.blockCursor inside
  have size := two_le_block_length (blockDocs docIds cursor.blockCursor)
    (blockDocs freqs cursor.blockCursor)
  have whole := payload_split postings.aligned cursor.blockCursor inside
  have held := opened.holds
  rw [whole] at held
  have block_held : cursor.segment.Holds
      (cursor.termBaseOffset + blockOffset docIds freqs cursor.blockCursor) _ := held.inner
  have below := block_held.below
  have offset_fits := cursor.segment.offset_fits
  have read := block_held.readChecked (by rw [← List.length_pos_iff]; omega) opened.readable
  have decoded := decodeBlock_payload postings cursor.blockCursor inside
  rw [directory_entry postings opened, if_pos inside] at current
  cases current
  unfold DiskPostingsCursor.load
  simp only [ending]
  rw [if_neg (by omega), if_neg (by omega), grown, Nat.add_sub_cancel_left, read]
  simp only [decoded, confirmed, if_true]

theorem currentBlock_spec (postings : IsPostings docIds freqs) {cursor : DiskPostingsCursor}
    (opened : Opened docIds freqs cursor) (cached : Cached docIds freqs cursor)
    {entry : BlockDirEntry} (inside : forBlockSize * cursor.blockCursor < docIds.length)
    (current : cursor.directory[cursor.blockCursor]? = some entry) :
    ∃ cache, cursor.currentBlock entry = (true, cache) ∧
      cache.loaded = some (cursor.blockCursor, blockDocs docIds cursor.blockCursor,
        blockDocs freqs cursor.blockCursor) ∧
      cache.localPos ≤ (blockDocs docIds cursor.blockCursor).length ∧
      consumed docIds cursor = forBlockSize * cursor.blockCursor + cache.localPos ∧
      cache.decoded.Nodup ∧ ∀ b ∈ cache.decoded, b ≤ cursor.blockCursor := by
  unfold DiskPostingsCursor.currentBlock consumed
  split
  · rename_i same
    obtain ⟨⟨b, docs, fs⟩, loaded, index⟩ := Option.map_eq_some_iff.mp same
    obtain ⟨_, content⟩ := cached.block b docs fs loaded
    obtain ⟨_, rfl, rfl, local_bound⟩ := content index
    simp only at index
    subst index
    exact ⟨cursor.cache, rfl, loaded, local_bound, rfl, cached.once,
      fun b member => (cached.recent b member).1⟩
  · rename_i other
    refine ⟨_, load_spec postings opened inside current, rfl, Nat.zero_le _, ?_, ?_, ?_⟩
    · rw [Nat.min_eq_left inside.le, Nat.add_zero]
    · rw [List.nodup_append]
      refine ⟨cached.once, List.nodup_singleton _, ?_⟩
      intro b member b' here same
      rw [List.mem_singleton] at here
      have known := (cached.recent b member).2 (same.trans here)
      rw [same, here] at known
      exact other known
    · intro b member
      rcases List.mem_append.mp member with old | new
      · exact (cached.recent b old).1
      · exact (List.mem_singleton.mp new).le

/-- Inside a block that reaches the target the block-local search is the global one. -/
theorem firstFrom_block (postings : IsPostings docIds freqs) (b localPos target : Nat)
    (inside : forBlockSize * b < docIds.length)
    (room : localPos < (blockDocs docIds b).length)
    (reached : target ≤ (blockDocs docIds b).getLastD 0) :
    firstFrom (blockDocs docIds b) target localPos < (blockDocs docIds b).length ∧
      firstFrom docIds target (forBlockSize * b + localPos) =
        forBlockSize * b + firstFrom (blockDocs docIds b) target localPos := by
  have ascending : docIds.Pairwise (· < ·) := List.isChain_iff_pairwise.mp postings.increasing
  have block := isBlock_of_postings postings b inside
  have size := blockDocs_length docIds b
  obtain ⟨q, hq⟩ : ∃ q, q = firstFrom (blockDocs docIds b) target localPos := ⟨_, rfl⟩
  have bounded := firstFrom_le (blockDocs docIds b) target room.le
  have start := le_firstFrom (blockDocs docIds b) target localPos
  rw [← hq] at bounded start
  have element : ∀ i, ∀ small : i < (blockDocs docIds b).length, ∃ large : forBlockSize * b + i <
      docIds.length, (blockDocs docIds b)[i] = docIds[forBlockSize * b + i] := by
    intro i small
    have at_i := blockDocs_getElem? docIds b i (by omega)
    rw [List.getElem?_eq_getElem small] at at_i
    obtain ⟨large, value⟩ := List.getElem?_eq_some_iff.mp at_i.symm
    exact ⟨large, value.symm⟩
  have found : q < (blockDocs docIds b).length := by
    by_contra missing
    have last : (blockDocs docIds b).getLastD 0 =
        (blockDocs docIds b)[(blockDocs docIds b).length - 1] := by
      rw [List.getLastD_eq_getLast?, List.getLast?_eq_getElem?,
        List.getElem?_eq_getElem (by omega), Option.getD_some]
    have after : localPos ≤ (blockDocs docIds b).length - 1 := by omega
    have below := lt_of_lt_firstFrom (blockDocs docIds b) target after
      (by rw [← hq]; omega) (by omega)
    omega
  rw [← hq]
  refine ⟨found, eq_firstFrom docIds target (by omega) (by omega) ?_ ?_⟩
  · intro i low high bound
    obtain ⟨_, value⟩ := element (i - forBlockSize * b) (by omega)
    have after : localPos ≤ i - forBlockSize * b := by omega
    have below := lt_of_lt_firstFrom (blockDocs docIds b) target after
      (by rw [← hq]; omega) (by omega)
    have index : forBlockSize * b + (i - forBlockSize * b) = i := by omega
    rw [value] at below
    simpa only [index] using below
  · intro bound
    obtain ⟨_, value⟩ := element q found
    rw [← value]
    simpa only [hq] using firstFrom_le_getElem (blockDocs docIds b) target (hq ▸ found)

theorem Cached.next {cursor : DiskPostingsCursor} (cache : BlockCache)
    (bounded : cursor.blockCursor < (postingsChunks docIds freqs).length)
    (older : ∀ b docs fs, cache.loaded = some (b, docs, fs) → b ≤ cursor.blockCursor)
    (once : cache.decoded.Nodup) (recent : ∀ b ∈ cache.decoded, b ≤ cursor.blockCursor) :
    Cached docIds freqs { cursor with blockCursor := cursor.blockCursor + 1, cache } := by
  refine ⟨bounded, ?_, once, ?_⟩
  · intro b docs fs loaded
    have := older b docs fs loaded
    exact ⟨by simp only; omega, fun same => by simp only at same; omega⟩
  · intro b member
    have := recent b member
    exact ⟨by simp only; omega, fun same => by simp only at same; omega⟩

theorem consumed_next {cursor : DiskPostingsCursor} (cache : BlockCache)
    (older : ∀ b docs fs, cache.loaded = some (b, docs, fs) → b ≤ cursor.blockCursor) :
    consumed docIds { cursor with blockCursor := cursor.blockCursor + 1, cache } =
      min (forBlockSize * (cursor.blockCursor + 1)) docIds.length := by
  unfold consumed
  rw [if_neg]
  intro same
  obtain ⟨⟨b, docs, fs⟩, loaded, index⟩ := Option.map_eq_some_iff.mp same
  have := older b docs fs loaded
  simp only at index
  omega

theorem docs_lt_of_block_below (postings : IsPostings docIds freqs) {b target : Nat}
    (inside : forBlockSize * b < docIds.length)
    (below : (blockDocs docIds b).getLastD 0 < target) (i : Nat)
    (early : i < min (forBlockSize * (b + 1)) docIds.length) (bound : i < docIds.length) :
    docIds[i] < target := by
  have entry := blockSkipEntries_getElem? docIds b
  rw [if_pos inside] at entry
  exact lt_of_block_below (List.isChain_iff_pairwise.mp postings.increasing) entry below i
    (by omega) bound

/- What an advance of the disk cursor must do, from `start` consumed postings on. -/
def Advances (docIds freqs : List Nat) (target start : Nat)
    (outcome : DiskPostingsAdvance × DiskPostingsCursor) : Prop :=
  Opened docIds freqs outcome.2 ∧ Cached docIds freqs outcome.2 ∧
    ((firstFrom docIds target start = docIds.length ∧ outcome.1 = .exhausted ∧
        consumed docIds outcome.2 = docIds.length) ∨
      ∃ docId, docIds[firstFrom docIds target start]? = some docId ∧ outcome.1 = .found docId ∧
        outcome.2.lastFreq = freqs.getD (firstFrom docIds target start) 0 ∧
        consumed docIds outcome.2 = firstFrom docIds target start + 1)

theorem Opened.with {cursor : DiskPostingsCursor} (opened : Opened docIds freqs cursor)
    (blockCursor : Nat) (cache : BlockCache) (lastFreq : Nat) :
    Opened docIds freqs { cursor with blockCursor, cache, lastFreq } :=
  ⟨opened.directory, opened.payloadLen, opened.fits, opened.holds, opened.readable⟩

theorem consumed_le {cursor : DiskPostingsCursor} (cached : Cached docIds freqs cursor)
    (inside : forBlockSize * cursor.blockCursor < docIds.length) :
    consumed docIds cursor ≤ min (forBlockSize * (cursor.blockCursor + 1)) docIds.length := by
  unfold consumed
  split
  · rename_i same
    obtain ⟨⟨b, docs, fs⟩, loaded, index⟩ := Option.map_eq_some_iff.mp same
    simp only at index
    obtain ⟨_, rfl, _, small⟩ := (cached.block b docs fs loaded).2 index
    rw [blockDocs_length, index] at small
    simp only [forBlockSize] at inside small ⊢
    omega
  · simp only [forBlockSize] at inside ⊢
    omega

/-- The gallop in the current block finds the first posting from the local position on. -/
theorem scanBlock_spec (postings : IsPostings docIds freqs) (target : Nat)
    {cursor : DiskPostingsCursor} (opened : Opened docIds freqs cursor)
    (inside : forBlockSize * cursor.blockCursor < docIds.length) {cache : BlockCache}
    (loaded : cache.loaded = some (cursor.blockCursor, blockDocs docIds cursor.blockCursor,
      blockDocs freqs cursor.blockCursor))
    (room : cache.localPos < (blockDocs docIds cursor.blockCursor).length)
    (reached : target ≤ (blockDocs docIds cursor.blockCursor).getLastD 0)
    (bounded : cursor.blockCursor ≤ (postingsChunks docIds freqs).length)
    (once : cache.decoded.Nodup) (recent : ∀ b ∈ cache.decoded, b ≤ cursor.blockCursor) :
    Advances docIds freqs target (forBlockSize * cursor.blockCursor + cache.localPos)
      ({ cursor with cache }.scanBlock (blockDocs docIds cursor.blockCursor)
        (blockDocs freqs cursor.blockCursor) target) := by
  obtain ⟨found, global⟩ := firstFrom_block postings cursor.blockCursor cache.localPos target
    inside room reached
  have ascending := (isBlock_of_postings postings cursor.blockCursor inside).increasing
  have galloped := gallopOffset_drop (blockDocs docIds cursor.blockCursor) target
    cache.localPos (List.isChain_iff_pairwise.mp ascending)
  have large := firstFrom_le_getElem (blockDocs docIds cursor.blockCursor) target found
  obtain ⟨q, hq⟩ : ∃ q, q = firstFrom (blockDocs docIds cursor.blockCursor) target
    cache.localPos := ⟨_, rfl⟩
  simp only [← hq] at found galloped large
  rw [Advances, global, ← hq]
  have short : q < forBlockSize := by
    rw [blockDocs_length] at found
    omega
  have doc_at := blockDocs_getElem? docIds cursor.blockCursor q short
  rw [List.getElem?_eq_getElem found] at doc_at
  have freq_found : q < (blockDocs freqs cursor.blockCursor).length := by
    rw [blockDocs_length] at found ⊢
    rwa [← postings.aligned]
  have freq_at := blockDocs_getElem? freqs cursor.blockCursor q short
  rw [List.getElem?_eq_getElem freq_found] at freq_at
  simp only [DiskPostingsCursor.scanBlock, galloped, List.getElem?_eq_getElem found,
    List.getElem?_eq_getElem freq_found]
  rw [if_neg (Nat.not_lt.mpr large)]
  refine ⟨opened.with _ _ _, ⟨bounded, ?_, once, ?_⟩, .inr ⟨_, doc_at.symm, rfl, ?_, ?_⟩⟩
  · intro b docs fs other
    simp only [loaded] at other
    cases other
    exact ⟨le_rfl, fun _ => ⟨inside, rfl, rfl, found⟩⟩
  · intro b member
    exact ⟨recent b member, fun same => by simp only [loaded, same, Option.map_some]⟩
  · rw [List.getD_eq_getElem?_getD, ← freq_at, Option.getD_some]
  · simp only [consumed, loaded, Option.map_some, if_true]
    omega

/-- The loop of `advance_to_with_status` finds the first posting from the consumed ones on. -/
theorem advanceToWithStatus_spec (postings : IsPostings docIds freqs) (target : Nat)
    {cursor : DiskPostingsCursor} (opened : Opened docIds freqs cursor)
    (cached : Cached docIds freqs cursor) :
    Advances docIds freqs target (consumed docIds cursor) (cursor.advanceToWithStatus target) := by
  have aligned := postings.aligned
  have positive := forBlockSize_pos
  obtain ⟨left, hleft⟩ : ∃ left, left = (postingsChunks docIds freqs).length - cursor.blockCursor :=
    ⟨_, rfl⟩
  -- induction on the blocks left, as every repetition of the loop passes one
  induction left using Nat.strongRecOn generalizing cursor with
  | ind left ih =>
    rw [DiskPostingsCursor.advanceToWithStatus]
    split
    · rename_i missing
      rw [directory_entry postings opened] at missing
      split at missing
      · cases missing
      · rename_i outside
        have past : consumed docIds cursor = docIds.length := by
          unfold consumed
          rw [if_neg]
          · omega
          · intro same
            obtain ⟨⟨b, docs, fs⟩, loaded, index⟩ := Option.map_eq_some_iff.mp same
            simp only at index
            obtain ⟨inside, _⟩ := (cached.block b docs fs loaded).2 index
            rw [index] at inside
            exact outside inside
        have all : firstFrom docIds target (consumed docIds cursor) = docIds.length := by
          rw [past]
          have := firstFrom_le docIds target (le_refl docIds.length)
          have := le_firstFrom docIds target docIds.length
          omega
        exact ⟨opened, cached, .inl ⟨all, rfl, past⟩⟩
    · rename_i entry current
      have inside : forBlockSize * cursor.blockCursor < docIds.length := by
        rw [directory_entry postings opened] at current
        by_contra outside
        rw [if_neg outside] at current
        cases current
      have bounded : cursor.blockCursor < (postingsChunks docIds freqs).length :=
        (lt_postingsChunks_length aligned _).mpr inside
      have max_entry : entry.maxDocId = (blockDocs docIds cursor.blockCursor).getLastD 0 := by
        rw [directory_entry postings opened, if_pos inside] at current
        cases current
        rfl
      have ahead := consumed_le cached inside
      split
      · rename_i below
        rw [max_entry] at below
        have older : ∀ b docs fs, cursor.cache.loaded = some (b, docs, fs) →
            b ≤ cursor.blockCursor := fun b docs fs loaded => (cached.block b docs fs loaded).1
        have valid := Cached.next cursor.cache bounded older cached.once
          fun b hb => (cached.recent b hb).1
        have next := ih (left - 1) (by omega)
          (opened.with (cursor.blockCursor + 1) cursor.cache cursor.lastFreq) valid
          (by simp only; omega)
        have skip : firstFrom docIds target (consumed docIds cursor) =
            firstFrom docIds target (min (forBlockSize * (cursor.blockCursor + 1)) docIds.length) :=
          firstFrom_skip docIds target ahead (by omega) fun i _ early bound =>
            docs_lt_of_block_below postings inside below i early bound
        rw [consumed_next cursor.cache older, Advances, ← skip] at next
        exact next
      · rename_i reached
        rw [max_entry] at reached
        obtain ⟨cache, ready, loaded, local_bound, position, once, recent⟩ :=
          currentBlock_spec postings opened cached inside current
        have older : ∀ b docs fs, cache.loaded = some (b, docs, fs) → b ≤ cursor.blockCursor := by
          intro b docs fs other
          rw [loaded] at other
          cases other
          exact le_rfl
        simp only [ready, if_true, loaded]
        split
        · rename_i drained
          have next := ih (left - 1) (by omega)
            (opened.with (cursor.blockCursor + 1) cache cursor.lastFreq)
            (Cached.next cache bounded older once recent) (by simp only; omega)
          have same : min (forBlockSize * (cursor.blockCursor + 1)) docIds.length =
              consumed docIds cursor := by
            rw [blockDocs_length] at drained local_bound
            rw [position]
            simp only [forBlockSize] at drained local_bound inside ⊢
            omega
          rw [consumed_next cache older, same] at next
          exact next
        · rename_i room
          rw [position]
          exact scanBlock_spec postings target opened inside loaded (by omega) (by omega)
            cached.bounded once recent

end Surch.Postings
