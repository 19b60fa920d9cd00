import Surch.Search.MaxScoreWalk

/-! The loop over the tokens as passes of which each may add documents or not, beside the
disjunction that all tokens make when none is refused. Contributions are not negative, so the
thresholds rise and the tokens that may add documents are the first ones. -/
namespace Surch.Search
open Surch.Lib Surch.Codec Surch.Postings

def contribution (score : Nat → Nat → Option ℚ) (postings : List (Nat × Nat)) (docId : Nat) :
    Option ℚ :=
  (postings.lookup docId).bind fun tf => if tf = 0 then none else score docId tf

def gain (before : Option ℚ) : Option ℚ → Option ℚ
  | none => before
  | some contrib => some (before.getD 0 + contrib)

@[simp] theorem gain_none (before : Option ℚ) : gain before none = before := rfl

@[simp] theorem gain_some (before : Option ℚ) (contrib : ℚ) :
    gain before (some contrib) = some (before.getD 0 + contrib) := rfl

theorem gain_eq_none_iff {before contrib : Option ℚ} :
    gain before contrib = none ↔ before = none ∧ contrib = none := by
  cases contrib <;> simp

theorem gain_right_comm (before first second : Option ℚ) :
    gain (gain before first) second = gain (gain before second) first := by
  cases first with
  | none => rfl
  | some first =>
    cases second with
    | none => rfl
    | some second => simp [add_right_comm]

section Passes

variable {score : Nat → Nat → Option ℚ}

theorem get?_scorePosting (allowNewDocs : Bool) (scored : Scored) (posting : Nat × Nat)
    (docId : Nat) :
    (addPostings score allowNewDocs [posting] scored).get? docId =
      if docId = posting.1 ∧ ¬ (scored.get? docId = none ∧ allowNewDocs = false) then
        gain (scored.get? docId) (if posting.2 = 0 then none else score posting.1 posting.2)
      else scored.get? docId := by
  obtain ⟨posted, tf⟩ := posting
  simp only [addPostings, List.foldl_cons, List.foldl_nil, scorePosting]
  by_cases zero : tf = 0
  · simp [zero, gain]
  · simp only [if_neg zero]
    by_cases closed : scored.get? posted = none ∧ allowNewDocs = false
    · simp only [if_pos closed]
      by_cases same : docId = posted
      · simp [same, closed]
      · simp [same]
    · simp only [if_neg closed]
      cases contrib : score posted tf with
      | none => simp [gain]
      | some contrib =>
        by_cases same : docId = posted
        · simp only [same, true_and, gain, SortedMap.get?_upsert, if_true, closed, not_false_eq_true]
        · simp [same]

@[simp] theorem contribution_nil (docId : Nat) : contribution score [] docId = none := rfl

theorem contribution_cons (posting : Nat × Nat) (postings : List (Nat × Nat)) (docId : Nat) :
    contribution score (posting :: postings) docId =
      if docId = posting.1 then (if posting.2 = 0 then none else score posting.1 posting.2)
      else contribution score postings docId := by
  obtain ⟨posted, tf⟩ := posting
  by_cases same : docId = posted
  · simp [contribution, same]
  · simp [contribution, List.lookup_cons, beq_false_of_ne same, same]

theorem contribution_eq_none {postings : List (Nat × Nat)} {docId : Nat}
    (absent : ∀ posting ∈ postings, posting.1 ≠ docId) :
    contribution score postings docId = none := by
  induction postings with
  | nil => rfl
  | cons posting postings ih =>
    have different := absent posting (by simp)
    rw [contribution_cons, if_neg different.symm]
    exact ih fun other member => absent other (by simp [member])

/-- What a pass does to a document: its contribution, where it is scored or may be added. -/
theorem get?_addPostings (allowNewDocs : Bool) {postings : List (Nat × Nat)}
    (ascending : (postings.map Prod.fst).Pairwise (· < ·)) (scored : Scored) (docId : Nat) :
    (addPostings score allowNewDocs postings scored).get? docId =
      if scored.get? docId = none ∧ allowNewDocs = false then none
      else gain (scored.get? docId) (contribution score postings docId) := by
  induction postings generalizing scored with
  | nil =>
    simp only [addPostings, List.foldl_nil, contribution_nil, gain]
    split
    · rename_i closed
      exact closed.1
    · rfl
  | cons posting postings ih =>
    obtain ⟨first, rest⟩ := List.pairwise_cons.mp ascending
    have split : addPostings score allowNewDocs (posting :: postings) scored =
        addPostings score allowNewDocs postings (addPostings score allowNewDocs [posting] scored) :=
      addPostings_append allowNewDocs [posting] postings scored
    rw [split, ih rest, get?_scorePosting, contribution_cons]
    by_cases same : docId = posting.1
    · have absent : contribution score postings docId = none := by
        apply contribution_eq_none
        intro other member
        have above := first other.1 (List.mem_map_of_mem member)
        omega
      rw [absent]
      by_cases closed : scored.get? docId = none ∧ allowNewDocs = false
      · simp [closed]
      · have opened : ¬ (gain (scored.get? docId)
            (if posting.2 = 0 then none else score posting.1 posting.2) = none ∧
              allowNewDocs = false) := by
          rw [gain_eq_none_iff]
          exact fun refused => closed ⟨refused.1.1, refused.2⟩
        simp only [if_pos (And.intro same closed), if_neg opened, if_neg closed, if_pos same,
          gain_none]
    · simp [same]

end Passes

def passToken (scoreDoc : Nat → Nat → Nat → Option ℚ) (allowNewDocs : Bool) (scored : Scored)
    (item : MaxScoreToken × Nat) : Scored :=
  addPostings (scoreDoc item.2) allowNewDocs item.1.postings scored

/-- The disjunction of some tokens with nothing skipped. -/
def exhaustive (scoreDoc : Nat → Nat → Nat → Option ℚ) (items : List (MaxScoreToken × Nat)) :
    Scored :=
  items.foldl (passToken scoreDoc true) .empty

def thresholdOf (limit : Nat) (scored : Scored) : WithBot ℚ := refreshThreshold limit scored ⊥

def gatedPass (limit : Nat) (scoreDoc : Nat → Nat → Nat → Option ℚ) (scored : Scored)
    (item : MaxScoreToken × Nat) : Scored :=
  passToken scoreDoc (decide (thresholdOf limit scored ≤ (item.1.maxContrib : WithBot ℚ))) scored
    item

/-- What the collector makes of the tokens, whatever blocks it skips. -/
def pruned (limit : Nat) (scoreDoc : Nat → Nat → Nat → Option ℚ)
    (items : List (MaxScoreToken × Nat)) : Scored :=
  items.foldl (gatedPass limit scoreDoc) .empty

def Keeps (scored later : Scored) : Prop :=
  ∀ docId, scored.get? docId ≠ none → later.get? docId ≠ none

def Grows (scored later : Scored) : Prop :=
  ∀ docId score, scored.get? docId = some score → ∃ more, later.get? docId = some more ∧ score ≤ more

def AllWellFormed (items : List (MaxScoreToken × Nat)) : Prop :=
  ∀ item ∈ items, item.1.WellFormed

/- A token's maximum bounds its contributions. -/
def Bounded (scoreDoc : Nat → Nat → Nat → Option ℚ) (items : List (MaxScoreToken × Nat)) : Prop :=
  ∀ item ∈ items, ∀ posting ∈ item.1.postings, ∀ contrib ∈ scoreDoc item.2 posting.1 posting.2,
    contrib ≤ item.1.maxContrib

def NonNegative (scoreDoc : Nat → Nat → Nat → Option ℚ) (items : List (MaxScoreToken × Nat)) :
    Prop :=
  ∀ item ∈ items, ∀ posting ∈ item.1.postings, ∀ contrib ∈ scoreDoc item.2 posting.1 posting.2,
    0 ≤ contrib

theorem MaxScoreToken.WellFormed.postings_ascending {token : MaxScoreToken}
    (wellFormed : token.WellFormed) : (token.postings.map Prod.fst).Pairwise (· < ·) := by
  have docs : token.postings.map Prod.fst = token.docIds := List.map_fst_zip wellFormed.aligned.ge
  rw [docs]
  exact wellFormed.ascending

section Tokens

variable {limit : Nat} {scoreDoc : Nat → Nat → Nat → Option ℚ} {items : List (MaxScoreToken × Nat)}

def gains (scoreDoc : Nat → Nat → Nat → Option ℚ) (items : List (MaxScoreToken × Nat))
    (docId : Nat) (before : Option ℚ) : Option ℚ :=
  items.foldl (fun before item => gain before (contribution (scoreDoc item.2) item.1.postings docId))
    before

theorem get?_foldl_passToken (wellFormed : AllWellFormed items) (allowNewDocs : Bool)
    (scored : Scored) (docId : Nat) :
    (items.foldl (passToken scoreDoc allowNewDocs) scored).get? docId =
      if scored.get? docId = none ∧ allowNewDocs = false then none
      else gains scoreDoc items docId (scored.get? docId) := by
  induction items generalizing scored with
  | nil =>
    simp only [List.foldl_nil, gains]
    split
    · rename_i closed
      exact closed.1
    · rfl
  | cons item items ih =>
    have ascending := (wellFormed item (by simp)).postings_ascending
    simp only [List.foldl_cons, ih fun other member => wellFormed other (by simp [member]),
      passToken, get?_addPostings allowNewDocs ascending]
    by_cases closed : scored.get? docId = none ∧ allowNewDocs = false
    · simp [closed]
    · have opened : ¬ (gain (scored.get? docId)
          (contribution (scoreDoc item.2) item.1.postings docId) = none ∧ allowNewDocs = false) := by
        rw [gain_eq_none_iff]
        exact fun refused => closed ⟨refused.1.1, refused.2⟩
      simp only [if_neg closed, if_neg opened]
      rfl

theorem get?_exhaustive (wellFormed : AllWellFormed items) (docId : Nat) :
    (exhaustive scoreDoc items).get? docId = gains scoreDoc items docId none := by
  rw [exhaustive, get?_foldl_passToken wellFormed]
  simp

theorem exhaustive_perm {other : List (MaxScoreToken × Nat)} (wellFormed : AllWellFormed items)
    (same : items.Perm other) : exhaustive scoreDoc items = exhaustive scoreDoc other := by
  apply SortedMap.ext_get?
  intro docId
  rw [get?_exhaustive wellFormed,
    get?_exhaustive fun item member => wellFormed item (same.mem_iff.mpr member)]
  have commutes : RightCommutative fun (before : Option ℚ) (item : MaxScoreToken × Nat) =>
      gain before (contribution (scoreDoc item.2) item.1.postings docId) :=
    ⟨fun _ _ _ => gain_right_comm _ _ _⟩
  exact same.foldl_eq none

theorem keeps_passToken {item : MaxScoreToken × Nat} (wellFormed : item.1.WellFormed)
    (allowNewDocs : Bool) (scored : Scored) :
    Keeps scored (passToken scoreDoc allowNewDocs scored item) := by
  intro docId present
  rw [passToken, get?_addPostings allowNewDocs wellFormed.postings_ascending]
  simp [present, gain_eq_none_iff]

theorem Keeps.length_le {scored later : Scored} (keeps : Keeps scored later) :
    scored.entries.length ≤ later.entries.length := by
  have inside : scored.keys ⊆ later.keys := by
    intro docId member
    have present := keeps docId (by rw [ne_eq, SortedMap.get?_eq_none_iff]; simpa using member)
    rw [ne_eq, SortedMap.get?_eq_none_iff] at present
    simpa using present
  have fewer := (List.subperm_of_subset scored.keys_nodup inside).length_le
  simpa [SortedMap.keys] using fewer

theorem refreshThreshold_keeps {scored later : Scored} (keeps : Keeps scored later) :
    refreshThreshold limit later (thresholdOf limit scored) = thresholdOf limit later := by
  have longer := keeps.length_le
  unfold thresholdOf refreshThreshold
  by_cases few : later.entries.length ≥ limit ∧ limit > 0
  · simp [few]
  · have fewer : ¬ (scored.entries.length ≥ limit ∧ limit > 0) := by omega
    simp only [if_neg few, if_neg fewer]

theorem keeps_gatedPass {item : MaxScoreToken × Nat} (wellFormed : item.1.WellFormed)
    (scored : Scored) : Keeps scored (gatedPass limit scoreDoc scored item) :=
  keeps_passToken wellFormed _ scored

theorem linearToken_pass {item : MaxScoreToken × Nat} (wellFormed : item.1.WellFormed)
    (scored : Scored) :
    linearToken limit scoreDoc (scored, thresholdOf limit scored) item =
      (gatedPass limit scoreDoc scored item,
        thresholdOf limit (gatedPass limit scoreDoc scored item)) := by
  have pass := linearToken_eq wellFormed limit scoreDoc item.2 scored (thresholdOf limit scored)
  have kept := @keeps_gatedPass limit scoreDoc item wellFormed scored
  apply Prod.ext
  · exact pass
  · rw [← refreshThreshold_keeps kept]
    exact congrArg (fun scored' => refreshThreshold limit scored' (thresholdOf limit scored)) pass

theorem foldl_linearToken (wellFormed : AllWellFormed items) (scored : Scored) :
    (items.foldl (linearToken limit scoreDoc) (scored, thresholdOf limit scored)).1 =
      items.foldl (gatedPass limit scoreDoc) scored := by
  induction items generalizing scored with
  | nil => rfl
  | cons item items ih =>
    rw [List.foldl_cons, List.foldl_cons, linearToken_pass (wellFormed item (by simp))]
    exact ih (fun other member => wellFormed other (by simp [member])) _

end Tokens

theorem thresholdOf_empty (limit : Nat) : thresholdOf limit .empty = ⊥ := by
  have few : ¬ ((SortedMap.empty : Scored).entries.length ≥ limit ∧ limit > 0) := by
    simp only [SortedMap.empty, List.length_nil]
    omega
  exact if_neg few

theorem orderedTokens_perm (tokens : List MaxScoreToken) :
    (orderedTokens tokens).Perm tokens.zipIdx := List.mergeSort_perm _ _

theorem orderedTokens_wellFormed {tokens : List MaxScoreToken}
    (wellFormed : ∀ token ∈ tokens, token.WellFormed) : AllWellFormed (orderedTokens tokens) := by
  intro item member
  have placed := (orderedTokens_perm tokens).mem_iff.mp member
  exact wellFormed item.1 (List.mem_zipIdx_iff_getElem?.mp placed |> List.mem_of_getElem?)

theorem linearReference_eq {tokens : List MaxScoreToken}
    (wellFormed : ∀ token ∈ tokens, token.WellFormed) (limit : Nat)
    (scoreDoc : Nat → Nat → Nat → Option ℚ) :
    linearReference tokens limit scoreDoc = pruned limit scoreDoc (orderedTokens tokens) := by
  have walked := @foldl_linearToken limit scoreDoc _ (orderedTokens_wellFormed wellFormed) .empty
  rw [thresholdOf_empty] at walked
  exact walked

namespace MaxScoreExecutor

def skipListOf (token : MaxScoreToken) : Option BlockSkipList :=
  (buildSkipList token.docIds).toOption.join

theorem prepare_ok {token : MaxScoreToken} (wellFormed : token.WellFormed) (tokenIdx : Nat) :
    prepare token tokenIdx = .ok (skipListOf token) ∧
      buildSkipList token.docIds = .ok (skipListOf token) := by
  obtain ⟨skipList, built, -, -⟩ := fromBlockRanges_ok wellFormed.ascending
  have accepted : buildSkipList token.docIds = .ok (skipListOf token) := by
    simp only [skipListOf, buildSkipList, built]
    split <;> rfl
  have blocks : token.blockMaxContribs.length =
      (token.docIds.length + blockSize - 1) / blockSize := wellFormed.blocks
  exact ⟨by simp [prepare, blocks, accepted], accepted⟩

variable {limit : Nat} {scoreDoc : Nat → Nat → Nat → Option ℚ}

theorem foldl_runOne {executor : MaxScoreExecutor} {skipLists : List (Option BlockSkipList)}
    {items : List (MaxScoreToken × Nat)} (wellFormed : AllWellFormed items)
    (built : ∀ item ∈ items, buildSkipList item.1.docIds = .ok (skipLists.getD item.2 none))
    (state : RunState) (ungated : state.collector.live = none)
    (refreshed : state.threshold = thresholdOf executor.limit state.collector.scored) :
    (items.foldl (executor.runOne scoreDoc skipLists) state).collector.scored =
      items.foldl (gatedPass executor.limit scoreDoc) state.collector.scored := by
  induction items generalizing state with
  | nil => rfl
  | cons item items ih =>
    have first := wellFormed item (by simp)
    have walked := @runToken_collector (scoreDoc item.2) item.1 _ first (built item (by simp))
      (decide (state.threshold ≤ (item.1.maxContrib : WithBot ℚ))) state.threshold 0 0
      state.collector ungated
    rw [Nat.zero_mul, List.drop_zero] at walked
    have scored : (executor.runOne scoreDoc skipLists state item).collector.scored =
        gatedPass executor.limit scoreDoc state.collector.scored item := by
      have pass := congrArg Collector.scored walked
      rw [foldl_scorePosting_scored] at pass
      rw [gatedPass, passToken, ← refreshed]
      exact pass
    rw [List.foldl_cons, List.foldl_cons, ← scored]
    apply ih
    · exact fun other member => wellFormed other (by simp [member])
    · exact fun other member => built other (by simp [member])
    · have still := @foldl_scorePosting_isSome (scoreDoc item.2) state.collector
        (decide (state.threshold ≤ (item.1.maxContrib : WithBot ℚ))) item.1.postings
      simp only [runOne, walked]
      simpa [ungated] using still
    · have kept := @keeps_gatedPass executor.limit scoreDoc item first state.collector.scored
      rw [scored, ← refreshThreshold_keeps kept, ← scored, ← refreshed]
      rfl

/-- A list of well-formed tokens is accepted, and every token gets the skip list of its own. -/
theorem prepare_tokens {tokens : List MaxScoreToken}
    (wellFormed : ∀ token ∈ tokens, token.WellFormed) :
    ∃ skipLists, (tokens.zipIdx.mapM fun item => prepare item.1 item.2) = .ok skipLists ∧
      ∀ item ∈ orderedTokens tokens,
        buildSkipList item.1.docIds = .ok (skipLists.getD item.2 none) := by
  refine ⟨tokens.zipIdx.map fun item => skipListOf item.1, ?_, ?_⟩
  · apply except_mapM_ok
    intro item member
    exact (prepare_ok (wellFormed item.1 (List.fst_mem_of_mem_zipIdx member)) item.2).1
  · intro item member
    have placed := List.mem_zipIdx_iff_getElem?.mp ((orderedTokens_perm tokens).mem_iff.mp member)
    have own : (tokens.zipIdx.map fun item => skipListOf item.1).getD item.2 none =
        skipListOf item.1 := by
      simp [List.getD_eq_getElem?_getD, placed]
    rw [own]
    exact (prepare_ok (wellFormed item.1 (List.mem_of_getElem? placed)) item.2).2

theorem run_ok {executor : MaxScoreExecutor} {tokens : List MaxScoreToken}
    (wellFormed : ∀ token ∈ tokens, token.WellFormed) :
    ∃ skipLists outcome, executor.run tokens scoreDoc = .ok outcome ∧
      (∀ item ∈ orderedTokens tokens,
        buildSkipList item.1.docIds = .ok (skipLists.getD item.2 none)) ∧
      outcome.scored = ((orderedTokens tokens).foldl (executor.runOne scoreDoc skipLists)
        (executor.initialState tokens)).collector.scored := by
  obtain ⟨skipLists, prepared, built⟩ := prepare_tokens wellFormed
  exact ⟨skipLists, _, except_bind_ok.mpr ⟨skipLists, prepared, rfl⟩, built, rfl⟩

theorem run_ungated {executor : MaxScoreExecutor} {tokens : List MaxScoreToken}
    (wellFormed : ∀ token ∈ tokens, token.WellFormed)
    (ungated : ¬ (executor.earlyTermination = true ∧ tokens.length = 1)) :
    ∃ outcome, executor.run tokens scoreDoc = .ok outcome ∧
      outcome.scored = pruned executor.limit scoreDoc (orderedTokens tokens) := by
  obtain ⟨skipLists, outcome, finished, built, collected⟩ := run_ok wellFormed
  have passes := @foldl_runOne scoreDoc executor skipLists _ (orderedTokens_wellFormed wellFormed)
    built (executor.initialState tokens) (if_neg ungated) (thresholdOf_empty executor.limit).symm
  exact ⟨outcome, finished, collected.trans passes⟩

end MaxScoreExecutor

end Surch.Search
