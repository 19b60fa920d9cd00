import Surch.Search.MaxScoreGate

/-! When the collector's pruning loses nothing. A token may add documents while its own maximum
reaches the K-th best score so far; what a document could gather from several later tokens is not
counted. So the best documents are found exactly when each is in one of the first tokens. -/
namespace Surch.Search
open Surch.Lib Surch.Codec Surch.Postings

/-- The tokens before the first one whose maximum lies below the K-th best score of the
disjunction of those before it. -/
def leadingTokens (limit : Nat) (scoreDoc : Nat → Nat → Nat → Option ℚ) (scored : Scored) :
    List (MaxScoreToken × Nat) → List (MaxScoreToken × Nat)
  | [] => []
  | item :: items =>
    if thresholdOf limit scored ≤ (item.1.maxContrib : WithBot ℚ) then
      item :: leadingTokens limit scoreDoc (passToken scoreDoc true scored item) items
    else []

section Thresholds

variable {limit : Nat} {scored later : Scored}

/-- A threshold reaches a bound exactly when as many scores as the limit asks for do. -/
theorem coe_le_thresholdOf_iff (bound : ℚ) :
    (bound : WithBot ℚ) ≤ thresholdOf limit scored ↔ 0 < limit ∧ limit ≤ atLeast bound scored := by
  unfold thresholdOf refreshThreshold
  by_cases enough : scored.entries.length ≥ limit ∧ limit > 0
  · have many : limit ≤ (scored.entries.map Prod.snd).length := by simpa using enough.1
    have ranked := Window.le_rank_iff enough.2 many bound 0
    rw [if_pos enough, WithBot.coe_le_coe, kthBestScore, ranked, List.countP_map]
    simp only [enough.2, true_and]
    rfl
  · have few : atLeast bound scored ≤ scored.entries.length := List.countP_le_length
    simp only [if_neg enough, WithBot.not_coe_le_bot, false_iff]
    omega

theorem Grows.atLeast_le (grows : Grows scored later) (bound : ℚ) :
    atLeast bound scored ≤ atLeast bound later := by
  have keys : ∀ scored : Scored, atLeast bound scored =
      ((scored.entries.filter fun entry => bound ≤ entry.2).map Prod.fst).length := by
    intro scored
    rw [List.length_map, atLeast, List.countP_eq_length_filter]
  rw [keys, keys]
  have distinct : ((scored.entries.filter fun entry => bound ≤ entry.2).map Prod.fst).Nodup :=
    scored.keys_nodup.sublist (List.filter_sublist.map Prod.fst)
  apply (List.subperm_of_subset distinct ?_).length_le
  intro docId member
  obtain ⟨⟨docId, score⟩, kept, rfl⟩ := List.mem_map.mp member
  obtain ⟨inside, reaches⟩ := List.mem_filter.mp kept
  obtain ⟨more, found, above⟩ := grows docId score ((SortedMap.get?_eq_some_iff _ _ _).mpr inside)
  rw [SortedMap.get?_eq_some_iff] at found
  have reached : bound ≤ more := (by simpa using reaches : bound ≤ score).trans above
  exact List.mem_map.mpr ⟨(docId, more), List.mem_filter.mpr ⟨found, by simpa using reached⟩, rfl⟩

theorem Grows.thresholdOf_le (grows : Grows scored later) :
    thresholdOf limit scored ≤ thresholdOf limit later := by
  cases value : thresholdOf limit scored with
  | bot => exact bot_le
  | coe bound =>
    obtain ⟨positive, enough⟩ := (coe_le_thresholdOf_iff bound).mp value.ge
    exact (coe_le_thresholdOf_iff bound).mpr ⟨positive, enough.trans (grows.atLeast_le bound)⟩

end Thresholds

section Pruning

variable {limit : Nat} {scoreDoc : Nat → Nat → Nat → Option ℚ} {scored : Scored}
  {item : MaxScoreToken × Nat} {items : List (MaxScoreToken × Nat)}

theorem contribution_nonneg (nonnegative : NonNegative scoreDoc items) (member : item ∈ items)
    {docId : Nat} {contrib : ℚ}
    (given : contribution (scoreDoc item.2) item.1.postings docId = some contrib) :
    0 ≤ contrib := by
  obtain ⟨tf, posted, scored⟩ := contribution_mem given
  exact nonnegative item member (docId, tf) posted contrib scored

theorem grows_passToken (wellFormed : item.1.WellFormed) (nonnegative : NonNegative scoreDoc [item])
    (allowNewDocs : Bool) : Grows scored (passToken scoreDoc allowNewDocs scored item) := by
  intro docId score found
  rw [passToken, get?_addPostings allowNewDocs wellFormed.postings_ascending, found]
  cases given : contribution (scoreDoc item.2) item.1.postings docId with
  | none => exact ⟨score, by simp, le_rfl⟩
  | some contrib =>
    have positive := contribution_nonneg nonnegative (by simp) given
    exact ⟨score + contrib, by simp, le_add_of_nonneg_right positive⟩

theorem foldl_gatedPass_closed (wellFormed : AllWellFormed items)
    (nonnegative : NonNegative scoreDoc items)
    (below : ∀ item ∈ items, ¬ thresholdOf limit scored ≤ (item.1.maxContrib : WithBot ℚ)) :
    items.foldl (gatedPass limit scoreDoc) scored =
      items.foldl (passToken scoreDoc false) scored := by
  induction items generalizing scored with
  | nil => rfl
  | cons item items ih =>
    have closed : gatedPass limit scoreDoc scored item = passToken scoreDoc false scored item := by
      rw [gatedPass, decide_eq_false (below item (by simp))]
    have grows : Grows scored (passToken scoreDoc false scored item) :=
      grows_passToken (wellFormed item (by simp))
        (fun other member => nonnegative other (by simp_all)) false
    rw [List.foldl_cons, List.foldl_cons, closed]
    apply ih
    · exact fun other member => wellFormed other (by simp [member])
    · exact fun other member => nonnegative other (by simp [member])
    · intro other member reached
      exact below other (by simp [member]) (grows.thresholdOf_le.trans reached)

/-- The passes over tokens of descending maxima: the leading ones add documents, the others only
update them. -/
theorem foldl_gatedPass (wellFormed : AllWellFormed items) (nonnegative : NonNegative scoreDoc items)
    (descending : items.Pairwise fun a b => b.1.maxContrib ≤ a.1.maxContrib) :
    ∃ others, items = leadingTokens limit scoreDoc scored items ++ others ∧
      items.foldl (gatedPass limit scoreDoc) scored =
        others.foldl (passToken scoreDoc false)
          ((leadingTokens limit scoreDoc scored items).foldl (passToken scoreDoc true) scored) := by
  induction items generalizing scored with
  | nil => exact ⟨[], rfl, rfl⟩
  | cons item items ih =>
    obtain ⟨first, rest⟩ := List.pairwise_cons.mp descending
    rw [leadingTokens]
    split
    · rename_i admitted
      obtain ⟨others, split, passes⟩ := @ih (passToken scoreDoc true scored item)
        (fun other member => wellFormed other (by simp [member]))
        (fun other member => nonnegative other (by simp [member])) rest
      refine ⟨others, by rw [List.cons_append, ← split], ?_⟩
      have opened : gatedPass limit scoreDoc scored item = passToken scoreDoc true scored item := by
        rw [gatedPass, decide_eq_true admitted]
      rw [List.foldl_cons, List.foldl_cons, opened, passes]
    · rename_i refused
      refine ⟨item :: items, rfl, foldl_gatedPass_closed wellFormed nonnegative ?_⟩
      intro other member reached
      have least : other.1.maxContrib ≤ item.1.maxContrib := by
        rcases List.mem_cons.mp member with rfl | later
        · exact le_rfl
        · exact first other later
      exact refused (reached.trans (WithBot.coe_le_coe.mpr least))

/-- The collected map is the exhaustive one, cut to the documents of the leading tokens. -/
theorem pruned_eq (wellFormed : AllWellFormed items) (nonnegative : NonNegative scoreDoc items)
    (descending : items.Pairwise fun a b => b.1.maxContrib ≤ a.1.maxContrib) :
    pruned limit scoreDoc items = (exhaustive scoreDoc items).filterKeys fun docId =>
      ((exhaustive scoreDoc (leadingTokens limit scoreDoc .empty items)).get? docId).isSome := by
  obtain ⟨others, split, passes⟩ := @foldl_gatedPass limit scoreDoc .empty items wellFormed
    nonnegative descending
  have leading : AllWellFormed (leadingTokens limit scoreDoc .empty items) := fun item member =>
    wellFormed item (by rw [split]; exact List.mem_append_left _ member)
  have later : AllWellFormed others := fun item member =>
    wellFormed item (by rw [split]; exact List.mem_append_right _ member)
  have whole : ∀ docId, gains scoreDoc items docId none =
      gains scoreDoc others docId
        (gains scoreDoc (leadingTokens limit scoreDoc .empty items) docId none) := by
    intro docId
    conv_lhs => rw [split]
    exact List.foldl_append
  have collected : pruned limit scoreDoc items = others.foldl (passToken scoreDoc false)
      (exhaustive scoreDoc (leadingTokens limit scoreDoc .empty items)) := passes
  apply SortedMap.ext_get?
  intro docId
  rw [collected, get?_foldl_passToken later, SortedMap.get?_filterKeys,
    get?_exhaustive wellFormed, whole, ← get?_exhaustive leading]
  cases (exhaustive scoreDoc (leadingTokens limit scoreDoc .empty items)).get? docId <;> simp

theorem foldl_gatedPass_leading (all : leadingTokens limit scoreDoc scored items = items) :
    items.foldl (gatedPass limit scoreDoc) scored = items.foldl (passToken scoreDoc true) scored := by
  induction items generalizing scored with
  | nil => rfl
  | cons item items ih =>
    rw [leadingTokens] at all
    split at all
    · rename_i admitted
      have opened : gatedPass limit scoreDoc scored item = passToken scoreDoc true scored item := by
        rw [gatedPass, decide_eq_true admitted]
      rw [List.foldl_cons, List.foldl_cons, opened]
      exact ih (List.cons.inj all).2
    · cases all

end Pruning

def MatchedBy (scoreDoc : Nat → Nat → Nat → Option ℚ) (items : List (MaxScoreToken × Nat))
    (docId : Nat) : Prop :=
  ∃ item ∈ items, contribution (scoreDoc item.2) item.1.postings docId ≠ none

section Lossless

variable {scoreDoc : Nat → Nat → Nat → Option ℚ} {tokens : List MaxScoreToken}

theorem gains_eq_none_iff {items : List (MaxScoreToken × Nat)} {docId : Nat} :
    gains scoreDoc items docId none = none ↔ ¬ MatchedBy scoreDoc items docId := by
  have general : ∀ before : Option ℚ, gains scoreDoc items docId before = none ↔
      before = none ∧ ¬ MatchedBy scoreDoc items docId := by
    induction items with
    | nil => simp [gains, MatchedBy]
    | cons item items ih =>
      intro before
      have step : gains scoreDoc (item :: items) docId before =
          gains scoreDoc items docId
            (gain before (contribution (scoreDoc item.2) item.1.postings docId)) := rfl
      rw [step, ih, gain_eq_none_iff]
      simp [MatchedBy, and_assoc]
  simpa using general none

theorem leadingTokens_sublist (limit : Nat) (scored : Scored) (items : List (MaxScoreToken × Nat)) :
    (leadingTokens limit scoreDoc scored items).Sublist items := by
  induction items generalizing scored with
  | nil => exact List.Sublist.slnil
  | cons item items ih =>
    rw [leadingTokens]
    split
    · exact (ih _).cons_cons item
    · exact List.nil_sublist _

theorem orderedTokens_descending (tokens : List MaxScoreToken) :
    (orderedTokens tokens).Pairwise fun a b => b.1.maxContrib ≤ a.1.maxContrib := by
  have sorted := @List.pairwise_mergeSort _ (fun a b : MaxScoreToken × Nat =>
    decide (b.1.maxContrib ≤ a.1.maxContrib))
    (fun a b c below above => by simpa using le_trans (by simpa using above) (by simpa using below))
    (fun a b => by simpa using le_total b.1.maxContrib a.1.maxContrib) tokens.zipIdx
  simpa [orderedTokens] using sorted

/-- Pruning loses nothing exactly when each of the best documents is matched by a leading token. -/
theorem pruned_lossless_iff (wellFormed : ∀ token ∈ tokens, token.WellFormed)
    (nonnegative : NonNegative scoreDoc tokens.zipIdx) (limit : Nat) :
    topPairs limit (pruned limit scoreDoc (orderedTokens tokens)) =
        topPairs limit (exhaustive scoreDoc tokens.zipIdx) ↔
      ∀ pair ∈ topPairs limit (exhaustive scoreDoc tokens.zipIdx),
        MatchedBy scoreDoc (leadingTokens limit scoreDoc .empty (orderedTokens tokens)) pair.2 := by
  have ordered := orderedTokens_perm tokens
  have wellFormed' := orderedTokens_wellFormed wellFormed
  have nonnegative' : NonNegative scoreDoc (orderedTokens tokens) := fun item member =>
    nonnegative item (ordered.mem_iff.mp member)
  have leading : AllWellFormed (leadingTokens limit scoreDoc .empty (orderedTokens tokens)) :=
    fun item member => wellFormed' item ((leadingTokens_sublist _ _ _).subset member)
  rw [pruned_eq wellFormed' nonnegative' (orderedTokens_descending tokens),
    exhaustive_perm wellFormed' ordered, topPairs_filterKeys_iff]
  apply forall₂_congr
  intro pair _
  rw [get?_exhaustive leading, Option.isSome_iff_ne_none, ne_eq, gains_eq_none_iff, not_not]

end Lossless

/-- The collector returns the best documents of the exhaustive disjunction, with their full scores,
exactly when each of them is matched by one of the leading tokens. -/
theorem run_lossless_iff (executor : MaxScoreExecutor) (tokens : List MaxScoreToken)
    (scoreDoc : Nat → Nat → Nat → Option ℚ) (wellFormed : ∀ token ∈ tokens, token.WellFormed)
    (bounded : Bounded scoreDoc tokens.zipIdx) :
    ∃ outcome, executor.run tokens scoreDoc = .ok outcome ∧
      (leadingTokens executor.limit scoreDoc .empty (orderedTokens tokens) = orderedTokens tokens →
        topPairs executor.limit outcome.scored =
          topPairs executor.limit (exhaustive scoreDoc tokens.zipIdx)) ∧
      (NonNegative scoreDoc tokens.zipIdx →
        (topPairs executor.limit outcome.scored =
            topPairs executor.limit (exhaustive scoreDoc tokens.zipIdx) ↔
          ∀ pair ∈ topPairs executor.limit (exhaustive scoreDoc tokens.zipIdx),
            MatchedBy scoreDoc
              (leadingTokens executor.limit scoreDoc .empty (orderedTokens tokens)) pair.2)) := by
  obtain ⟨outcome, finished, best, -⟩ := run_pruned executor tokens scoreDoc wellFormed fun _ _ => bounded
  refine ⟨outcome, finished, ?_, ?_⟩
  · intro all
    rw [best, pruned, foldl_gatedPass_leading all]
    exact congrArg (topPairs executor.limit)
      (exhaustive_perm (orderedTokens_wellFormed wellFormed) (orderedTokens_perm tokens))
  · intro nonnegative
    rw [best]
    exact pruned_lossless_iff wellFormed nonnegative executor.limit

section Example

/- One document with a high score from one term, another with two lower ones. -/
def oneHighTwoLow : List MaxScoreToken :=
  [{ docIds := [1], freqs := [3], blockMaxContribs := [3], maxContrib := 3 },
    { docIds := [2], freqs := [2], blockMaxContribs := [2], maxContrib := 2 },
    { docIds := [2], freqs := [2], blockMaxContribs := [2], maxContrib := 2 }]

def scoreOccurrences (_ _ tf : Nat) : Option ℚ := some tf

theorem oneHighTwoLow_wellFormed : ∀ token ∈ oneHighTwoLow, token.WellFormed := by
  intro token member
  simp only [oneHighTwoLow, List.mem_cons, List.not_mem_nil, or_false] at member
  rcases member with rfl | rfl | rfl
  all_goals exact ⟨by simp, by simp, rfl, rfl⟩

theorem oneHighTwoLow_bounded : Bounded scoreOccurrences oneHighTwoLow.zipIdx := by
  simp [Bounded, oneHighTwoLow, scoreOccurrences, MaxScoreToken.postings]

theorem scoreOccurrences_nonNegative (items : List (MaxScoreToken × Nat)) :
    NonNegative scoreOccurrences items := by
  simp [NonNegative, scoreOccurrences]

theorem orderedTokens_oneHighTwoLow : orderedTokens oneHighTwoLow = oneHighTwoLow.zipIdx := by
  apply List.mergeSort_of_pairwise
  simp only [oneHighTwoLow, List.zipIdx_cons, List.zipIdx_nil]
  decide +kernel

/-- The best document is lost: each of its two terms alone lies below the threshold. -/
theorem not_run_lossless :
    ¬ ∀ (executor : MaxScoreExecutor) (tokens : List MaxScoreToken)
      (scoreDoc : Nat → Nat → Nat → Option ℚ) (outcome : MaxScoreOutcome),
      (∀ token ∈ tokens, token.WellFormed) → Bounded scoreDoc tokens.zipIdx →
        NonNegative scoreDoc tokens.zipIdx → executor.run tokens scoreDoc = .ok outcome →
          topPairs executor.limit outcome.scored =
            topPairs executor.limit (exhaustive scoreDoc tokens.zipIdx) := by
  intro lossless
  obtain ⟨outcome, finished, best, -⟩ := run_pruned (.new 1) oneHighTwoLow scoreOccurrences
    oneHighTwoLow_wellFormed fun _ _ => oneHighTwoLow_bounded
  have same := lossless _ _ _ outcome oneHighTwoLow_wellFormed oneHighTwoLow_bounded
    (scoreOccurrences_nonNegative _) finished
  rw [best, orderedTokens_oneHighTwoLow] at same
  have kept : (pruned 1 scoreOccurrences oneHighTwoLow.zipIdx).entries = [(1, 3)] := by
    decide +kernel
  have all : (exhaustive scoreOccurrences oneHighTwoLow.zipIdx).entries = [(1, 3), (2, 4)] := by
    decide +kernel
  have higher : compare (4 : ℚ) 3 = .gt := compare_gt_iff_gt.mpr (by norm_num)
  simp [topPairs, Window.front, MaxScoreExecutor.new, kept, all, List.mergeSort,
    List.MergeSort.Internal.splitInTwo, scoredPairOrdering, higher, Ordering.then] at same

/- The first term alone leads, and matches nothing else. -/
theorem run_lossless_iff_oneHighTwoLow :
    ∃ outcome, (MaxScoreExecutor.new 1).run oneHighTwoLow scoreOccurrences = .ok outcome ∧
      (topPairs 1 outcome.scored = topPairs 1 (exhaustive scoreOccurrences oneHighTwoLow.zipIdx) ↔
        ∀ pair ∈ topPairs 1 (exhaustive scoreOccurrences oneHighTwoLow.zipIdx),
          MatchedBy scoreOccurrences
            (leadingTokens 1 scoreOccurrences .empty (orderedTokens oneHighTwoLow)) pair.2) := by
  obtain ⟨outcome, finished, -, exactly⟩ := run_lossless_iff (.new 1) oneHighTwoLow
    scoreOccurrences oneHighTwoLow_wellFormed oneHighTwoLow_bounded
  exact ⟨outcome, finished, exactly (scoreOccurrences_nonNegative _)⟩

end Example

end Surch.Search
