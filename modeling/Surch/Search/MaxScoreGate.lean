import Surch.Search.MaxScorePasses

/-! The gate of a single token. It closes when as many documents as the limit asks for have
reached the token's maximum, and every later document is then behind them all. -/
namespace Surch.Search
open Surch.Lib Surch.Codec Surch.Postings

section Ordering

theorem scoredPairOrdering_isLE_iff (a b : ℚ × Nat) :
    (scoredPairOrdering a b).isLE = true ↔ b.1 < a.1 ∨ a.1 = b.1 ∧ a.2 ≤ b.2 := by
  rcases lt_trichotomy a.1 b.1 with less | same | more
  · have above : compare b.1 a.1 = .gt := compare_gt_iff_gt.mpr less
    simp [scoredPairOrdering, above, Ordering.then, less.asymm, less.ne]
  · simp [scoredPairOrdering, Ordering.then, same, ← compare_le_iff_le, Ordering.isLE_iff_ne_gt]
  · have below : compare b.1 a.1 = .lt := compare_lt_iff_lt.mpr more
    simp [scoredPairOrdering, below, Ordering.then, more]

theorem scoredPairOrdering_total : Window.Total fun a b => (scoredPairOrdering a b).isLE := by
  constructor
  · intro x y
    simp only [scoredPairOrdering_isLE_iff]
    grind
  · intro x y z
    simp only [scoredPairOrdering_isLE_iff]
    grind
  · intro x y
    simp only [scoredPairOrdering_isLE_iff]
    intro below above
    apply Prod.ext <;> grind

/-- A selection of the documents has the same best pairs exactly when it has all of them. -/
theorem topPairs_filterKeys_iff (limit : Nat) (scored : Scored) (p : Nat → Bool) :
    topPairs limit (scored.filterKeys p) = topPairs limit scored ↔
      ∀ pair ∈ topPairs limit scored, p pair.2 = true := by
  have filtered : (scored.filterKeys p).entries.map Prod.swap =
      (scored.entries.map Prod.swap).filter fun pair => p pair.2 := by
    rw [List.filter_map]
    rfl
  unfold topPairs
  rw [filtered]
  exact Window.front_filter_eq_iff scoredPairOrdering_total (fun pair => p pair.2) limit _

theorem get?_of_mem_topPairs {limit : Nat} {scored : Scored} {pair : ℚ × Nat}
    (member : pair ∈ topPairs limit scored) : scored.get? pair.2 = some pair.1 := by
  have inside := List.mem_mergeSort.mp (List.mem_of_mem_take member)
  rw [SortedMap.get?_eq_some_iff]
  obtain ⟨entry, listed, rfl⟩ := List.mem_map.mp inside
  exact listed

theorem countP_lt_of_mem_topPairs {limit : Nat} {scored : Scored} {pair : ℚ × Nat}
    (member : pair ∈ topPairs limit scored) (before : Nat × ℚ → Bool)
    (strict : ∀ entry, before entry = true → pair.1 ≤ entry.2 ∧ entry.1 < pair.2) :
    scored.entries.countP before < limit := by
  have counted := Window.countP_lt_of_mem_front scoredPairOrdering_total member
    (fun other => before other.swap) (by
      intro other claimed
      obtain ⟨score, earlier⟩ := strict _ claimed
      simp only [Prod.fst_swap, Prod.snd_swap] at score earlier
      constructor
      · rw [scoredPairOrdering_isLE_iff]
        rcases score.lt_or_eq with less | same
        · exact .inl less
        · exact .inr ⟨same.symm, earlier.le⟩
      · rintro rfl
        exact absurd earlier (lt_irrefl _))
  rw [List.countP_map] at counted
  exact counted

end Ordering

def atLeast (bound : ℚ) (scored : Scored) : Nat :=
  scored.entries.countP fun entry => bound ≤ entry.2

structure Watches (limit : Nat) (bound : ℚ) (collector : Collector) (gate : SingleTokenGate) :
    Prop where
  present : collector.live = some gate
  same_limit : gate.limit = limit
  same_bound : gate.bound = bound
  seen : gate.atBound ≤ atLeast bound collector.scored
  closes : gate.minCompetitive.kthBest ≠ none → 0 < limit ∧ limit ≤ gate.atBound

section Gate

variable {score : Nat → Nat → Option ℚ} {limit : Nat} {bound : ℚ} {gate : SingleTokenGate}

theorem atLeast_upsert {scored : Scored} {docId : Nat} (missing : scored.get? docId = none)
    (value : ℚ) :
    atLeast bound (scored.upsert docId fun _ => value) =
      atLeast bound scored + if bound ≤ value then 1 else 0 := by
  rw [atLeast, (SortedMap.perm_upsert missing _).countP_eq, List.countP_cons, atLeast]
  simp

theorem observe_spec (gate : SingleTokenGate) (value : ℚ) :
    (gate.observe value).limit = gate.limit ∧ (gate.observe value).bound = gate.bound ∧
      gate.atBound ≤ (gate.observe value).atBound ∧
      (gate.observe value).atBound ≤ gate.atBound + (if gate.bound ≤ value then 1 else 0) ∧
      ((gate.observe value).minCompetitive = gate.minCompetitive ∨
        0 < gate.limit ∧ gate.limit ≤ (gate.observe value).atBound) := by
  unfold SingleTokenGate.observe
  by_cases ignored : gate.limit = 0 ∨ value < gate.bound
  · simp [ignored]
  · rw [not_or, not_lt] at ignored
    have counted : ¬ (gate.limit = 0 ∨ value < gate.bound) := by
      simpa using ignored
    simp only [if_neg counted, if_pos ignored.2]
    split
    · rename_i reached
      exact ⟨rfl, rfl, Nat.le_succ _, le_rfl, .inr ⟨Nat.pos_of_ne_zero ignored.1, reached⟩⟩
    · exact ⟨rfl, rfl, Nat.le_succ _, le_rfl, .inl rfl⟩

namespace Watches

theorem scorePosting {collector : Collector} (watches : Watches limit bound collector gate)
    {posting : Nat × Nat} (missing : collector.scored.get? posting.1 = none) :
    ∃ later, Watches limit bound (scorePosting score true collector posting) later := by
  obtain ⟨docId, tf⟩ := posting
  simp only at missing
  simp only [Search.scorePosting, missing, Bool.true_eq_false, and_false, if_false]
  split
  · exact ⟨gate, watches⟩
  split
  · exact ⟨gate, watches⟩
  · rename_i contrib given
    obtain ⟨same_limit, same_bound, more, few, closes⟩ :=
      observe_spec gate ((none : Option ℚ).getD 0 + contrib)
    have grown := @atLeast_upsert bound _ _ missing ((none : Option ℚ).getD 0 + contrib)
    have seen := watches.seen
    rw [watches.same_bound] at few
    refine ⟨gate.observe ((none : Option ℚ).getD 0 + contrib), by simp [watches.present],
      same_limit.trans watches.same_limit, same_bound.trans watches.same_bound, ?_, ?_⟩
    · simp only [grown]
      omega
    · intro closed
      rw [watches.same_limit] at closes
      rcases closes with unchanged | reached
      · rw [unchanged] at closed
        have before := watches.closes closed
        exact ⟨before.1, before.2.trans more⟩
      · exact reached

theorem foldl {postings : List (Nat × Nat)} (ascending : (postings.map Prod.fst).Pairwise (· < ·))
    {collector : Collector} (watches : Watches limit bound collector gate)
    (missing : ∀ posting ∈ postings, collector.scored.get? posting.1 = none) :
    ∃ later, Watches limit bound (postings.foldl (Search.scorePosting score true) collector)
      later := by
  induction postings generalizing collector gate with
  | nil => exact ⟨gate, watches⟩
  | cons posting postings ih =>
    obtain ⟨first, rest⟩ := List.pairwise_cons.mp ascending
    obtain ⟨next, watches'⟩ := @scorePosting score limit bound gate collector watches posting
      (missing posting (by simp))
    apply ih rest watches'
    intro other member
    have different := first other.1 (List.mem_map_of_mem member)
    have pass := @foldl_scorePosting_scored score true [posting] collector
    simp only [List.foldl_cons, List.foldl_nil] at pass
    rw [pass, get?_scorePosting, if_neg (by omega)]
    exact missing other (by simp [member])

end Watches

theorem contribution_append (postings more : List (Nat × Nat)) (docId : Nat) :
    contribution score (postings ++ more) docId =
      if docId ∈ postings.map Prod.fst then contribution score postings docId
      else contribution score more docId := by
  induction postings with
  | nil => simp
  | cons posting postings ih =>
    obtain ⟨posted, tf⟩ := posting
    rw [List.cons_append, contribution_cons, contribution_cons, ih]
    by_cases same : docId = posted
    · simp [same]
    · simp only [same, List.map_cons, List.mem_cons, false_or, if_false]

theorem addPostings_take {token : MaxScoreToken} (wellFormed : token.WellFormed) (n : Nat) :
    addPostings score true (token.postings.take n) .empty =
      (addPostings score true token.postings .empty).filterKeys
        fun docId => docId ∈ token.docIds.take n := by
  have ascending := wellFormed.postings_ascending
  have taken : (token.postings.take n).map Prod.fst = token.docIds.take n := by
    rw [List.map_take, MaxScoreToken.postings, List.map_fst_zip wellFormed.aligned.ge]
  have first : ((token.postings.take n).map Prod.fst).Pairwise (· < ·) := by
    rw [List.map_take]
    exact ascending.sublist (List.take_sublist _ _)
  apply SortedMap.ext_get?
  intro docId
  rw [SortedMap.get?_filterKeys, get?_addPostings true ascending, get?_addPostings true first]
  have split := @contribution_append score (token.postings.take n) (token.postings.drop n) docId
  rw [List.take_append_drop, taken] at split
  by_cases inside : docId ∈ token.docIds.take n
  · simp [inside, split]
  · have absent : contribution score (token.postings.take n) docId = none := by
      apply contribution_eq_none
      rintro posting member rfl
      exact inside (taken ▸ List.mem_map_of_mem member)
    simp [inside, absent]

theorem topPairs_of_closed {token : MaxScoreToken} (wellFormed : token.WellFormed) {n : Nat}
    (bounded : ∀ docId contrib, contribution score token.postings docId = some contrib →
      contrib ≤ token.maxContrib)
    (enough : limit ≤ atLeast token.maxContrib (addPostings score true (token.postings.take n) .empty)) :
    topPairs limit (addPostings score true (token.postings.take n) .empty) =
      topPairs limit (addPostings score true token.postings .empty) := by
  rw [addPostings_take wellFormed] at enough ⊢
  rw [topPairs_filterKeys_iff]
  intro pair member
  by_contra outside
  rw [decide_eq_true_eq] at outside
  have scored := get?_of_mem_topPairs member
  rw [get?_addPostings true wellFormed.postings_ascending] at scored
  obtain ⟨low, posted⟩ : pair.1 ≤ token.maxContrib ∧ pair.2 ∈ token.docIds := by
    cases given : contribution score token.postings pair.2 with
    | none => simp [given] at scored
    | some contrib =>
      simp only [given, SortedMap.get?_empty, gain_some, Option.getD_none, zero_add, Bool.true_eq_false,
        and_false, if_false, Option.some.injEq] at scored
      constructor
      · rw [← scored]
        exact bounded pair.2 contrib given
      · by_contra unposted
        have absent : contribution score token.postings pair.2 = none := by
          apply contribution_eq_none
          rintro posting inside same
          exact unposted (same ▸ MaxScoreToken.mem_docIds inside)
        rw [absent] at given
        cases given
  have later : pair.2 ∈ token.docIds.drop n := by
    rw [← List.take_append_drop n token.docIds] at posted
    exact (List.mem_append.mp posted).resolve_left outside
  have ascending := wellFormed.ascending
  rw [← List.take_append_drop n token.docIds] at ascending
  have counted := countP_lt_of_mem_topPairs member
    (fun entry => decide (token.maxContrib ≤ entry.2) && decide (entry.1 ∈ token.docIds.take n)) (by
      intro entry claimed
      simp only [Bool.and_eq_true, decide_eq_true_eq] at claimed
      exact ⟨low.trans claimed.1,
        (List.pairwise_append.mp ascending).2.2 entry.1 claimed.2 pair.2 later⟩)
  rw [atLeast, SortedMap.filterKeys, List.countP_filter] at enough
  omega

end Gate

section Single

variable {scoreDoc : Nat → Nat → Nat → Option ℚ} {token : MaxScoreToken}

theorem contribution_mem {score : Nat → Nat → Option ℚ} {postings : List (Nat × Nat)} {docId : Nat}
    {contrib : ℚ} (given : contribution score postings docId = some contrib) :
    ∃ tf, (docId, tf) ∈ postings ∧ score docId tf = some contrib := by
  induction postings with
  | nil => cases given
  | cons posting postings ih =>
    rw [contribution_cons] at given
    split at given
    · rename_i same
      subst same
      split at given
      · cases given
      · exact ⟨posting.2, by simp, given⟩
    · obtain ⟨tf, member, scored⟩ := ih given
      exact ⟨tf, by simp [member], scored⟩

/-- A run over a single token keeps the best documents, whether its gate closes or not. -/
theorem run_single {executor : MaxScoreExecutor} (armed : executor.earlyTermination = true)
    (wellFormed : token.WellFormed) (bounded : Bounded scoreDoc [(token, 0)]) :
    ∃ outcome, executor.run [token] scoreDoc = .ok outcome ∧
      topPairs executor.limit outcome.scored =
        topPairs executor.limit (exhaustive scoreDoc (orderedTokens [token])) := by
  obtain ⟨skipLists, outcome, finished, built, collected⟩ :=
    @MaxScoreExecutor.run_ok scoreDoc executor [token] (by simpa using wellFormed)
  refine ⟨outcome, finished, ?_⟩
  have ordered : orderedTokens [token] = [(token, 0)] := List.mergeSort_singleton _
  have live : (executor.initialState [token]).collector.live =
      some (SingleTokenGate.new executor.limit token.maxContrib) := by
    simp [MaxScoreExecutor.initialState, armed]
  obtain ⟨stop, -, walked, ended⟩ := @runToken_gated (scoreDoc 0) token (skipLists.getD 0 none)
    wellFormed (decide ((executor.initialState [token]).threshold ≤ (token.maxContrib : WithBot ℚ)))
    (executor.initialState [token]).threshold 0 0 (executor.initialState [token]).collector
    (by simp [live]) (Nat.zero_le _)
  rw [Nat.zero_mul, List.drop_zero, Nat.sub_zero] at walked
  have scored : outcome.scored =
      addPostings (scoreDoc 0) true (token.postings.take (stop * blockSize)) .empty := by
    rw [collected, ordered]
    have pass := congrArg Collector.scored walked
    rw [foldl_scorePosting_scored] at pass
    exact pass
  rw [scored, ordered]
  change _ = topPairs executor.limit (addPostings (scoreDoc 0) true token.postings .empty)
  rcases ended with whole | ⟨gate, closed⟩
  · rw [List.take_of_length_le]
    simp only [MaxScoreToken.postings, List.length_zip]
    omega
  · apply topPairs_of_closed wellFormed
    · intro docId contrib given
      obtain ⟨tf, member, scored⟩ := contribution_mem given
      exact bounded (token, 0) (by simp) (docId, tf) member contrib scored
    · have fresh : Watches executor.limit token.maxContrib
          (executor.initialState [token]).collector
          (SingleTokenGate.new executor.limit token.maxContrib) :=
        ⟨live, rfl, rfl, Nat.zero_le _, fun armed => absurd rfl armed⟩
      have first : ((token.postings.take (stop * blockSize)).map Prod.fst).Pairwise (· < ·) := by
        rw [List.map_take]
        exact wellFormed.postings_ascending.sublist (List.take_sublist _ _)
      obtain ⟨later, watches⟩ := @Watches.foldl (scoreDoc 0) _ _ _ _ first _ fresh fun _ _ => rfl
      rw [walked] at closed
      cases watches.present.symm.trans closed.1
      have reached := watches.closes (by
        intro unset
        simp [SingleTokenGate.admits, MinCompetitiveScore.admits, unset] at closed)
      have seen := watches.seen
      rw [foldl_scorePosting_scored] at seen
      exact reached.2.trans seen

theorem pruned_single (limit : Nat) (item : MaxScoreToken × Nat) :
    pruned limit scoreDoc [item] = exhaustive scoreDoc [item] := by
  simp [pruned, exhaustive, gatedPass, thresholdOf_empty]

end Single

/-- A run ends with the best pairs of the passes, and with all of them unless a single token may
stop early. -/
theorem run_pruned (executor : MaxScoreExecutor) (tokens : List MaxScoreToken)
    (scoreDoc : Nat → Nat → Nat → Option ℚ) (wellFormed : ∀ token ∈ tokens, token.WellFormed)
    (bounded : executor.earlyTermination = true → tokens.length = 1 → Bounded scoreDoc tokens.zipIdx) :
    ∃ outcome, executor.run tokens scoreDoc = .ok outcome ∧
      topPairs executor.limit outcome.scored =
        topPairs executor.limit (pruned executor.limit scoreDoc (orderedTokens tokens)) ∧
      (¬ (executor.earlyTermination = true ∧ tokens.length = 1) →
        outcome.scored = pruned executor.limit scoreDoc (orderedTokens tokens)) := by
  by_cases gated : executor.earlyTermination = true ∧ tokens.length = 1
  · obtain ⟨armed, single⟩ := gated
    obtain ⟨token, rfl⟩ := List.length_eq_one_iff.mp single
    obtain ⟨outcome, finished, best⟩ := run_single armed (wellFormed token (by simp)) (bounded armed rfl)
    have ordered : orderedTokens [token] = [(token, 0)] := List.mergeSort_singleton _
    refine ⟨outcome, finished, ?_, fun multiple => absurd ⟨armed, single⟩ multiple⟩
    rw [best, ordered, pruned_single]
  · obtain ⟨outcome, finished, scored⟩ :=
      @MaxScoreExecutor.run_ungated scoreDoc executor tokens wellFormed gated
    exact ⟨outcome, finished, congrArg (topPairs executor.limit) scored, fun _ => scored⟩

/-- The collector that leaps with its skip lists and the walk over every block find the same best
pairs; the collected maps are the same unless a single token may stop early. -/
theorem run_linearReference (executor : MaxScoreExecutor) (tokens : List MaxScoreToken)
    (scoreDoc : Nat → Nat → Nat → Option ℚ) (wellFormed : ∀ token ∈ tokens, token.WellFormed)
    (bounded : executor.earlyTermination = true → tokens.length = 1 → Bounded scoreDoc tokens.zipIdx) :
    ∃ outcome, executor.run tokens scoreDoc = .ok outcome ∧
      topPairs executor.limit outcome.scored =
        topPairs executor.limit (linearReference tokens executor.limit scoreDoc) ∧
      (¬ (executor.earlyTermination = true ∧ tokens.length = 1) →
        outcome.scored = linearReference tokens executor.limit scoreDoc) := by
  rw [linearReference_eq wellFormed]
  exact run_pruned executor tokens scoreDoc wellFormed bounded

def rareToken : MaxScoreToken where
  docIds := [3, 290]
  freqs := [5, 4]
  blockMaxContribs := [10]
  maxContrib := 10

def commonToken (count : Nat) : MaxScoreToken where
  docIds := List.range count
  freqs := List.replicate count 1
  blockMaxContribs := List.replicate ((count + blockSize - 1) / blockSize) 1
  maxContrib := 1

def scoreRareAndCommon (tokenIdx _ tf : Nat) : Option ℚ :=
  if tokenIdx = 0 then some (2 * tf) else some 1

theorem commonToken_wellFormed {count : Nat} (narrow : count ≤ 2 ^ 32) :
    (commonToken count).WellFormed where
  ascending := List.pairwise_lt_range
  narrow docId member := (List.mem_range.mp member).trans_le narrow
  aligned := by simp [commonToken]
  blocks := by simp [commonToken, MaxScoreToken.numBlocks]

/- The common term has three blocks. Alone, it may stop once its window is full. -/
theorem run_linearReference_rareAndCommon :
    (∃ outcome,
      (MaxScoreExecutor.new 2).run [rareToken, commonToken 300] scoreRareAndCommon = .ok outcome ∧
        outcome.scored = linearReference [rareToken, commonToken 300] 2 scoreRareAndCommon) ∧
    ∃ outcome, (MaxScoreExecutor.new 2).run [commonToken 300] (fun _ _ _ => some 1) = .ok outcome ∧
      topPairs 2 outcome.scored =
        topPairs 2 (linearReference [commonToken 300] 2 fun _ _ _ => some 1) := by
  have wellFormed : ∀ token ∈ [rareToken, commonToken 300], token.WellFormed := by
    intro token member
    simp only [List.mem_cons, List.not_mem_nil, or_false] at member
    rcases member with rfl | rfl
    · exact ⟨by simp [rareToken], by simp [rareToken], rfl, rfl⟩
    · exact commonToken_wellFormed (by decide)
  have bounded : Bounded (fun _ _ _ => some 1) [commonToken 300].zipIdx := by
    intro item member posting _ contrib scored
    obtain rfl := List.mem_singleton.mp member
    obtain rfl := Option.some.inj scored
    exact le_rfl
  constructor
  · obtain ⟨outcome, finished, -, same⟩ := run_linearReference (.new 2) [rareToken, commonToken 300]
      scoreRareAndCommon wellFormed fun _ single => absurd single (by decide)
    exact ⟨outcome, finished, same (by simp)⟩
  · obtain ⟨outcome, finished, best, -⟩ := run_linearReference (.new 2) [commonToken 300]
      (fun _ _ _ => some 1) (fun token member => wellFormed token (List.mem_cons_of_mem _ member))
      fun _ _ => bounded
    exact ⟨outcome, finished, best⟩

end Surch.Search
