import Surch.Search.MaxScore
import Mathlib.Algebra.Order.Floor.Div

/-! A token's walk over its blocks against one pass over all its postings. A block is passed over
only where no document of it is scored and none may be added, so nothing is missed. -/
namespace Surch.Search
open Surch.Lib Surch.Codec Surch.Postings

/- What the collector expects of a token: ascending identifiers of 32 bits, a frequency for each,
and one maximum for each block. -/
structure MaxScoreToken.WellFormed (token : MaxScoreToken) : Prop where
  ascending : token.docIds.Pairwise (· < ·)
  narrow : ∀ docId ∈ token.docIds, docId < 2 ^ 32
  aligned : token.freqs.length = token.docIds.length
  blocks : token.numBlocks = (token.docIds.length + blockSize - 1) / blockSize

section Ranges

variable {scored : Scored} {low high docId : Nat}

theorem firstScored_eq_none_iff :
    firstScored scored low high = none ↔
      ∀ docId, low ≤ docId → docId ≤ high → scored.get? docId = none := by
  simp only [firstScored, List.find?_eq_none, decide_eq_true_eq, not_and, SortedMap.get?_eq_none_iff]
  constructor
  · intro none_in docId above below member
    exact none_in docId member above below
  · intro none_in docId member above below
    exact none_in docId above below member

theorem nextScored_eq_none_iff :
    nextScored scored low = none ↔ ∀ docId, low ≤ docId → scored.get? docId = none := by
  simp only [nextScored, List.find?_eq_none, decide_eq_true_eq, SortedMap.get?_eq_none_iff]
  constructor
  · intro none_in docId above member
    exact none_in docId member above
  · intro none_in docId member above
    exact none_in docId above member

theorem nextScored_least (found : nextScored scored low = some docId) :
    ∀ other, low ≤ other → other < docId → scored.get? other = none := by
  intro other above below
  rw [SortedMap.get?_eq_none_iff]
  intro member
  obtain ⟨-, before, after, split, passed⟩ := List.find?_eq_some_iff_append.mp found
  have sorted : scored.keys.Pairwise (· < ·) := scored.sorted
  rw [split] at member sorted
  rcases List.mem_append.mp member with early | late
  · have missed := passed other early
    simp at missed
    omega
  · rcases List.mem_cons.mp late with rfl | later
    · omega
    · have ordered := (List.pairwise_cons.mp (List.pairwise_append.mp sorted).2.1).1 other later
      omega

end Ranges

theorem bounds_of_ascending {first : Nat} {rest : List Nat}
    (ascending : (first :: rest).Pairwise (· < ·)) :
    ∀ docId ∈ first :: rest, first ≤ docId ∧
      docId ≤ (first :: rest).getLast (List.cons_ne_nil _ _) := by
  intro docId member
  constructor
  · rcases List.mem_cons.mp member with rfl | later
    · exact le_rfl
    · exact ((List.pairwise_cons.mp ascending).1 docId later).le
  · rw [← List.dropLast_append_getLast (List.cons_ne_nil first rest)] at ascending member
    rcases List.mem_append.mp member with early | final
    · exact ((List.pairwise_append.mp ascending).2.2 docId early _ List.mem_cons_self).le
    · exact (List.mem_singleton.mp final).le

section Idle

variable {score : Nat → Nat → Option ℚ} {collector : Collector}

theorem scorePosting_idle {posting : Nat × Nat}
    (absent : collector.scored.get? posting.1 = none) :
    scorePosting score false collector posting = collector := by
  simp [scorePosting, absent]

/-- Postings of which no document is scored change nothing when none may be added. -/
theorem foldl_scorePosting_idle {postings : List (Nat × Nat)}
    (absent : ∀ posting ∈ postings, collector.scored.get? posting.1 = none) :
    postings.foldl (scorePosting score false) collector = collector := by
  induction postings with
  | nil => rfl
  | cons posting postings ih =>
    simp only [List.foldl_cons, scorePosting_idle (absent posting (by simp))]
    exact ih fun other member => absent other (by simp [member])

theorem block_idle {first : Nat} {rest : List Nat} (ascending : (first :: rest).Pairwise (· < ·))
    (idle : firstScored collector.scored first
      ((first :: rest).getLast (List.cons_ne_nil _ _)) = none) (freqs : List Nat) :
    ((first :: rest).zip freqs).foldl (scorePosting score false) collector = collector := by
  apply foldl_scorePosting_idle
  intro posting member
  obtain ⟨above, below⟩ := bounds_of_ascending ascending posting.1 (List.of_mem_zip member).1
  exact firstScored_eq_none_iff.mp idle posting.1 above below

theorem scorePosting_isSome (allowNewDocs : Bool) (posting : Nat × Nat) :
    (scorePosting score allowNewDocs collector posting).live.isSome = collector.live.isSome := by
  simp only [scorePosting]
  split
  · rfl
  split
  · rfl
  split
  · rfl
  · simp

theorem foldl_scorePosting_isSome (allowNewDocs : Bool) (postings : List (Nat × Nat)) :
    (postings.foldl (scorePosting score allowNewDocs) collector).live.isSome =
      collector.live.isSome := by
  induction postings generalizing collector with
  | nil => rfl
  | cons posting postings ih =>
    rw [List.foldl_cons, ih, scorePosting_isSome]

end Idle

namespace MaxScoreToken

variable {token : MaxScoreToken}

theorem zip_block (token : MaxScoreToken) (blockIdx : Nat) :
    (token.blockDocIds blockIdx).zip (token.blockFreqs blockIdx) =
      (token.postings.drop (blockIdx * blockSize)).take blockSize := by
  simp only [blockDocIds, blockFreqs, postings, List.zip, List.drop_zipWith, List.take_zipWith]

theorem postings_drop (token : MaxScoreToken) (blockIdx : Nat) :
    token.postings.drop (blockIdx * blockSize) =
      (token.blockDocIds blockIdx).zip (token.blockFreqs blockIdx) ++
        token.postings.drop ((blockIdx + 1) * blockSize) := by
  rw [zip_block, Nat.succ_mul, ← List.drop_drop, List.take_append_drop]

theorem mem_docIds {posting : Nat × Nat} (member : posting ∈ token.postings) :
    posting.1 ∈ token.docIds := (List.of_mem_zip member).1

namespace WellFormed

theorem length_le (wellFormed : token.WellFormed) :
    token.docIds.length ≤ token.numBlocks * blockSize := by
  have blocks := wellFormed.blocks
  simp only [blockSize, forBlockSize] at blocks ⊢
  omega

theorem block_inside (wellFormed : token.WellFormed) {blockIdx : Nat}
    (more : blockIdx < token.numBlocks) : blockIdx * blockSize < token.docIds.length := by
  have blocks := wellFormed.blocks
  simp only [blockSize, forBlockSize] at blocks ⊢
  omega

theorem lt_of_take_drop (wellFormed : token.WellFormed) {place : Nat} {before : Nat}
    {posting : Nat × Nat} (early : before ∈ token.docIds.take place)
    (late : posting ∈ token.postings.drop place) : before < posting.1 := by
  have sorted := wellFormed.ascending
  rw [← List.take_append_drop place token.docIds] at sorted
  have after : posting.1 ∈ token.docIds.drop place := by
    rw [postings, List.zip, List.drop_zipWith] at late
    exact (List.of_mem_zip late).1
  exact (List.pairwise_append.mp sorted).2.2 before early posting.1 after

theorem block_ascending (wellFormed : token.WellFormed) (blockIdx : Nat) :
    (token.blockDocIds blockIdx).Pairwise (· < ·) :=
  wellFormed.ascending.sublist ((List.take_sublist _ _).trans (List.drop_sublist _ _))

theorem last_lt (wellFormed : token.WellFormed) {blockIdx blockFirst : Nat} {rest : List Nat}
    (block : token.blockDocIds blockIdx = blockFirst :: rest) {posting : Nat × Nat}
    (later : posting ∈ token.postings.drop ((blockIdx + 1) * blockSize)) :
    (blockFirst :: rest).getLast (List.cons_ne_nil _ _) < posting.1 := by
  apply @lt_of_take_drop token wellFormed ((blockIdx + 1) * blockSize) _ posting ?_ later
  have member : (blockFirst :: rest).getLast (List.cons_ne_nil _ _) ∈ token.blockDocIds blockIdx := by
    rw [block]
    exact List.getLast_mem _
  rw [Nat.succ_mul, List.take_add]
  exact List.mem_append_right _ member

end WellFormed

end MaxScoreToken

theorem seekBlock_spec {token : MaxScoreToken} (wellFormed : token.WellFormed)
    {skipList : BlockSkipList} (built : buildSkipList token.docIds = .ok (some skipList))
    {target fromBlock : Nat} (inside : fromBlock ≤ token.numBlocks) :
    ∀ i docId, fromBlock * blockSize ≤ i → i < seekBlock skipList target fromBlock * blockSize →
      token.docIds[i]? = some docId → docId < target := by
  obtain ⟨list, made, layered, bottom⟩ := fromBlockRanges_ok wellFormed.ascending
  have same : list = skipList := by
    unfold buildSkipList at built
    split at built
    · cases built
    · rw [made] at built
      cases built
      rfl
  subst same
  have entries : (blockSkipEntries token.docIds).length = token.numBlocks := by
    rw [blockSkipEntries, List.length_mapIdx, chunks_length (by decide), wellFormed.blocks]
  have searched := (BlockSkipCursor.resume list fromBlock).advanceTo_spec target layered
    (by simpa [bottom, entries] using inside)
  simp only [BlockSkipCursor.resume_skipList, BlockSkipCursor.resume_position, bottom] at searched
  obtain ⟨q, -, -, passed, -, -, answer, -⟩ := searched
  have landed : seekBlock list target fromBlock = q ∨
      (blockSkipEntries token.docIds)[q]? = none := by
    unfold seekBlock
    split
    · rename_i entry cursor found
      left
      rw [found] at answer
      exact (blockSkipEntries_some answer.symm).2.1
    · rename_i cursor missing
      right
      rw [missing] at answer
      exact answer.symm
  intro i docId start stop found
  have in_list := (List.getElem?_eq_some_iff.mp found).1
  have block : forBlockSize * (i / blockSize) < token.docIds.length := by
    simp only [blockSize, forBlockSize]
    omega
  have entry := blockSkipEntries_getElem? token.docIds (i / blockSize)
  simp only [if_pos block] at entry
  have early : i / blockSize < q := by
    rcases landed with same | missing
    · rw [same] at stop
      simp only [blockSize, forBlockSize] at stop ⊢
      omega
    · rw [List.getElem?_eq_none_iff] at missing
      exact (List.getElem?_eq_some_iff.mp entry).1.trans_le missing
  have below := passed (i / blockSize)
    (by simp only [blockSize, forBlockSize] at start ⊢; omega) early _ entry
  have reached := lt_of_block_below wellFormed.ascending entry below i
    (by simp only [blockSize, forBlockSize]; omega) in_list
  exact (List.getElem?_eq_some_iff.mp found).2 ▸ reached

section Run

variable {score : Nat → Nat → Option ℚ} {token : MaxScoreToken} {skipList : Option BlockSkipList}

theorem foldl_skip {collector : Collector} {start stop : Nat} (ordered : start ≤ stop)
    (absent : ∀ posting ∈ (token.postings.drop start).take (stop - start),
      collector.scored.get? posting.1 = none) :
    (token.postings.drop start).foldl (scorePosting score false) collector =
      (token.postings.drop stop).foldl (scorePosting score false) collector := by
  have split : token.postings.drop start =
      (token.postings.drop start).take (stop - start) ++ token.postings.drop stop := by
    conv_lhs => rw [← List.take_append_drop (stop - start) (token.postings.drop start)]
    rw [List.drop_drop, Nat.add_sub_cancel' ordered]
  rw [split, List.foldl_append, foldl_scorePosting_idle absent]

theorem zip_block_idle (wellFormed : token.WellFormed) {collector : Collector}
    {blockIdx blockFirst : Nat} {rest : List Nat}
    (block : token.blockDocIds blockIdx = blockFirst :: rest)
    (idle : firstScored collector.scored blockFirst
      ((blockFirst :: rest).getLast (List.cons_ne_nil _ _)) = none) :
    ((token.blockDocIds blockIdx).zip (token.blockFreqs blockIdx)).foldl
      (scorePosting score false) collector = collector := by
  have ascending := wellFormed.block_ascending blockIdx
  rw [block] at ascending ⊢
  exact block_idle ascending idle _

/-- Where nothing after a skippable block is scored, the rest of the token changes nothing. -/
theorem skipped_rest (wellFormed : token.WellFormed) {collector : Collector}
    {blockIdx blockFirst : Nat} {rest : List Nat}
    (block : token.blockDocIds blockIdx = blockFirst :: rest)
    (idle : firstScored collector.scored blockFirst
      ((blockFirst :: rest).getLast (List.cons_ne_nil _ _)) = none)
    (nothing : nextScored collector.scored
      (((blockFirst :: rest).getLast (List.cons_ne_nil _ _) + 1) % 2 ^ 32) = none) :
    (token.postings.drop (blockIdx * blockSize)).foldl (scorePosting score false) collector =
      collector := by
  rw [token.postings_drop, List.foldl_append, zip_block_idle wellFormed block idle]
  apply foldl_scorePosting_idle
  intro posting member
  have above := wellFormed.last_lt block member
  have narrow := wellFormed.narrow posting.1 (MaxScoreToken.mem_docIds (List.mem_of_mem_drop member))
  apply nextScored_eq_none_iff.mp nothing
  omega

/-- A skippable block and the blocks up to where the walk goes on change nothing. -/
theorem skipped_blocks (wellFormed : token.WellFormed)
    (built : buildSkipList token.docIds = .ok skipList) {collector : Collector}
    {blockIdx blockFirst target : Nat} {rest : List Nat} (more : blockIdx < token.numBlocks)
    (block : token.blockDocIds blockIdx = blockFirst :: rest)
    (idle : firstScored collector.scored blockFirst
      ((blockFirst :: rest).getLast (List.cons_ne_nil _ _)) = none)
    (next : nextScored collector.scored
      (((blockFirst :: rest).getLast (List.cons_ne_nil _ _) + 1) % 2 ^ 32) = some target) :
    let sought :=
      match skipList with
      | some list => seekBlock list target blockIdx
      | none => blockIdx + 1
    (token.postings.drop (blockIdx * blockSize)).foldl (scorePosting score false) collector =
      (token.postings.drop (min (max sought (blockIdx + 1)) token.numBlocks * blockSize)).foldl
        (scorePosting score false) collector := by
  intro sought
  rw [token.postings_drop, List.foldl_append, zip_block_idle wellFormed block idle]
  have onward : blockIdx + 1 ≤ min (max sought (blockIdx + 1)) token.numBlocks := by omega
  apply foldl_skip (Nat.mul_le_mul_right _ onward)
  intro posting member
  have above := wellFormed.last_lt block (List.mem_of_mem_take member)
  obtain ⟨i, inside, at_i⟩ := List.getElem_of_mem member
  simp only [List.length_take, List.length_drop] at inside
  simp only [List.getElem_take, List.getElem_drop, MaxScoreToken.postings, List.getElem_zip] at at_i
  have in_docIds : (blockIdx + 1) * blockSize + i < token.docIds.length := by
    simp only [MaxScoreToken.postings, List.length_zip] at inside
    omega
  have at_docIds : token.docIds[(blockIdx + 1) * blockSize + i]? = some posting.1 := by
    rw [List.getElem?_eq_getElem in_docIds, ← at_i]
  have narrow := wellFormed.narrow posting.1 (List.mem_of_getElem? at_docIds)
  apply nextScored_least next posting.1 (by omega)
  cases skipList with
  | none =>
    simp only [sought, max_self, Nat.min_eq_left more, Nat.sub_self] at inside
    omega
  | some list =>
    have stop : (blockIdx + 1) * blockSize + i <
        min (max sought (blockIdx + 1)) token.numBlocks * blockSize := by omega
    apply seekBlock_spec wellFormed built more.le _ _ ?_ ?_ at_docIds
    · simp only [blockSize, forBlockSize]
      omega
    · simp only [sought, blockSize, forBlockSize] at stop ⊢
      omega

/-- Without a gate of its own, the walk of a token is one pass over its postings. -/
theorem runToken_collector (wellFormed : token.WellFormed)
    (built : buildSkipList token.docIds = .ok skipList) (allowNewDocs : Bool)
    (threshold : WithBot ℚ) (blockIdx blocksSkipped : Nat) (collector : Collector)
    (ungated : collector.live = none) :
    (runToken score token skipList allowNewDocs threshold blockIdx blocksSkipped collector).2 =
      (token.postings.drop (blockIdx * blockSize)).foldl (scorePosting score allowNewDocs)
        collector := by
  fun_induction runToken score token skipList allowNewDocs threshold blockIdx blocksSkipped collector with
  | case1 blockIdx blocksSkipped collector more allowed gated =>
    simp [ungated] at gated
  | case2 blockIdx blocksSkipped collector more allowed proper docs empty ih =>
    have nothing : token.blockDocIds blockIdx = [] := empty
    rw [ih ungated, token.postings_drop blockIdx, nothing]
    rfl
  | case3 blockIdx blocksSkipped collector more allowed proper docs first rest block blockMax last
      skippable nothing =>
    have closed : allowNewDocs = false := by simpa [allowed, ungated] using skippable.1
    rw [closed, skipped_rest wellFormed block skippable.2.2 nothing]
  | case4 blockIdx blocksSkipped collector more allowed proper docs first rest block blockMax last
      skippable target next sought targetBlock ih =>
    have closed : allowNewDocs = false := by simpa [allowed, ungated] using skippable.1
    rw [ih ungated, closed]
    exact (skipped_blocks wellFormed built more block skippable.2.2 next).symm
  | case5 blockIdx blocksSkipped collector more allowed proper docs freqs first rest block blockMax
      last scores ih =>
    have same : allowed = allowNewDocs := by simp [allowed, ungated]
    have still : ((docs.zip freqs).foldl (scorePosting score allowed) collector).live = none := by
      rw [← Option.not_isSome_iff_eq_none, foldl_scorePosting_isSome, ungated]
      simp
    rw [ih still, same, token.postings_drop blockIdx, List.foldl_append]
  | case6 blockIdx blocksSkipped collector done =>
    have length : token.postings.length ≤ blockIdx * blockSize := by
      have short := wellFormed.length_le
      have within := Nat.mul_le_mul_right blockSize (Nat.not_lt.mp done)
      simp only [MaxScoreToken.postings, List.length_zip]
      omega
    rw [List.drop_eq_nil_of_le length]
    rfl

/-- With a gate, the walk is one pass over the postings before the block at which it closes. -/
theorem runToken_gated (wellFormed : token.WellFormed) (allowNewDocs : Bool)
    (threshold : WithBot ℚ) (blockIdx blocksSkipped : Nat) (collector : Collector)
    (gated : collector.live.isSome = true) (inside : blockIdx ≤ token.numBlocks) :
    ∃ stop, blockIdx ≤ stop ∧
      (runToken score token skipList allowNewDocs threshold blockIdx blocksSkipped collector).2 =
        ((token.postings.drop (blockIdx * blockSize)).take ((stop - blockIdx) * blockSize)).foldl
          (scorePosting score true) collector ∧
      (token.docIds.length ≤ stop * blockSize ∨
        ∃ gate, (runToken score token skipList allowNewDocs threshold blockIdx blocksSkipped
          collector).2.live = some gate ∧ gate.admits token.maxContrib = false) := by
  obtain ⟨gate, present⟩ := Option.isSome_iff_exists.mp gated
  fun_induction runToken score token skipList allowNewDocs threshold blockIdx blocksSkipped collector
    generalizing gate with
  | case1 blockIdx blocksSkipped collector more allowed closed =>
    refine ⟨blockIdx, le_rfl, by simp, .inr ⟨gate, present, ?_⟩⟩
    simpa [allowed, present] using closed.2
  | case2 blockIdx blocksSkipped collector more allowed proper docs empty ih =>
    have nothing : token.blockDocIds blockIdx = [] := empty
    have filled := wellFormed.block_inside more
    simp [MaxScoreToken.blockDocIds, blockSize, forBlockSize] at nothing filled
    omega
  | case3 blockIdx blocksSkipped collector more allowed proper docs first rest block blockMax last
      skippable nothing =>
    exact absurd ⟨gated, skippable.1⟩ proper
  | case4 blockIdx blocksSkipped collector more allowed proper docs first rest block blockMax last
      skippable target next sought targetBlock ih =>
    exact absurd ⟨gated, skippable.1⟩ proper
  | case5 blockIdx blocksSkipped collector more allowed proper docs freqs first rest block blockMax
      last scores ih =>
    have opened : allowed = true := by simpa [gated] using proper
    have still : ((docs.zip freqs).foldl (scorePosting score allowed) collector).live.isSome =
        true := by
      rw [foldl_scorePosting_isSome, gated]
    obtain ⟨gate', present'⟩ := Option.isSome_iff_exists.mp still
    obtain ⟨stop, ahead, walked, ended⟩ := ih still more gate' present'
    refine ⟨stop, by omega, ?_, ended⟩
    obtain ⟨blocks, rfl⟩ := Nat.exists_eq_add_of_le ahead
    have here : blockIdx + 1 + blocks - blockIdx = blocks + 1 := by omega
    have there : blockIdx + 1 + blocks - (blockIdx + 1) = blocks := by omega
    have pieces : (blocks + 1) * blockSize = blockSize + blocks * blockSize := by
      rw [Nat.succ_mul, Nat.add_comm]
    rw [there] at walked
    rw [walked, here, opened, pieces, List.take_add, List.foldl_append, List.drop_drop,
      ← Nat.succ_mul, ← token.zip_block]
  | case6 blockIdx blocksSkipped collector done =>
    refine ⟨blockIdx, le_rfl, by simp, .inl ?_⟩
    have short := wellFormed.length_le
    have within := Nat.mul_le_mul_right blockSize (Nat.not_lt.mp done)
    omega

end Run

def addPostings (score : Nat → Nat → Option ℚ) (allowNewDocs : Bool) (postings : List (Nat × Nat))
    (scored : Scored) : Scored :=
  (postings.foldl (scorePosting score allowNewDocs) { scored, live := none }).scored

section Pass

variable {score : Nat → Nat → Option ℚ}

theorem foldl_scorePosting_scored (allowNewDocs : Bool) (postings : List (Nat × Nat))
    (collector : Collector) :
    (postings.foldl (scorePosting score allowNewDocs) collector).scored =
      addPostings score allowNewDocs postings collector.scored := by
  have step : ∀ (one other : Collector) (posting : Nat × Nat), one.scored = other.scored →
      (scorePosting score allowNewDocs one posting).scored =
        (scorePosting score allowNewDocs other posting).scored := by
    intro one other posting same
    simp only [scorePosting, same]
    split
    · exact same
    split
    · exact same
    split
    · exact same
    · rfl
  have passes : ∀ one other : Collector, one.scored = other.scored →
      (postings.foldl (scorePosting score allowNewDocs) one).scored =
        (postings.foldl (scorePosting score allowNewDocs) other).scored := by
    induction postings with
    | nil => exact fun _ _ same => same
    | cons posting postings ih => exact fun one other same => ih _ _ (step one other posting same)
  exact passes _ _ rfl

theorem addPostings_append (allowNewDocs : Bool) (postings more : List (Nat × Nat))
    (scored : Scored) :
    addPostings score allowNewDocs (postings ++ more) scored =
      addPostings score allowNewDocs more (addPostings score allowNewDocs postings scored) := by
  rw [addPostings, List.foldl_append, foldl_scorePosting_scored]
  rfl

theorem linearBlock_eq (token : MaxScoreToken) (allowNewDocs : Bool) (threshold : WithBot ℚ)
    (scored : Scored) (docIds freqs : List Nat) (blockIdx : Nat)
    (ascending : docIds.Pairwise (· < ·)) :
    linearBlock score token allowNewDocs threshold scored ((docIds, freqs), blockIdx) =
      addPostings score allowNewDocs (docIds.zip freqs) scored := by
  simp only [linearBlock]
  split
  · simp [addPostings]
  · rename_i first rest
    split
    · rename_i skipped
      obtain ⟨closed, -, idle⟩ := skipped
      subst closed
      rw [addPostings, @block_idle score { scored, live := none } first rest ascending idle]
    · rfl

theorem linearToken_eq {token : MaxScoreToken} (wellFormed : token.WellFormed) (limit : Nat)
    (scoreDoc : Nat → Nat → Nat → Option ℚ) (tokenIdx : Nat) (scored : Scored)
    (threshold : WithBot ℚ) :
    (linearToken limit scoreDoc (scored, threshold) (token, tokenIdx)).1 =
      addPostings (scoreDoc tokenIdx) (decide (threshold ≤ (token.maxContrib : WithBot ℚ)))
        token.postings scored := by
  have walk : ∀ (blocks : List (List Nat × List Nat)) (start : Nat) (allowNewDocs : Bool)
      (scored : Scored), (∀ block ∈ blocks, block.1.Pairwise (· < ·)) →
      (blocks.zipIdx start).foldl
          (linearBlock (scoreDoc tokenIdx) token allowNewDocs threshold) scored =
        addPostings (scoreDoc tokenIdx) allowNewDocs (blocks.flatMap fun block => block.1.zip block.2)
          scored := by
    intro blocks
    induction blocks with
    | nil => exact fun _ _ _ _ => rfl
    | cons block blocks ih =>
      intro start allowNewDocs scored ascending
      rw [List.zipIdx_cons, List.foldl_cons, List.flatMap_cons, addPostings_append,
        linearBlock_eq _ _ _ _ _ _ _ (ascending block (by simp))]
      exact ih _ _ _ fun other member => ascending other (by simp [member])
  have positive : 0 < blockSize := by decide
  rw [MaxScoreToken.postings, ← chunks_zip positive wellFormed.aligned.symm]
  apply walk
  intro block member
  exact wellFormed.ascending.sublist (mem_chunks_sublist positive (List.of_mem_zip member).1)

end Pass

end Surch.Search
