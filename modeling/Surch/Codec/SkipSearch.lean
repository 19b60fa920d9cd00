import Surch.Codec.SkipList

/-! The two-level search against a linear scan of the blocks, from any position. The top
layer is jumped as far as its entries lie below the target, so the answer is at most one
interval further on, and the bounded scan always meets it. -/
namespace Surch.Codec
open Surch.Lib

def linearSearch (bottom : List BlockSkipEntry) (position target : Nat) :
    Option BlockSkipEntry × Nat :=
  ((bottom.drop position).find? fun entry => target ≤ entry.maxDocId,
    position + (bottom.drop position).findIdx fun entry => target ≤ entry.maxDocId)

section Linear

variable {bottom : List BlockSkipEntry} {position target : Nat} {entry : BlockSkipEntry}

theorem linearSearch_past (past : bottom.length ≤ position) :
    linearSearch bottom position target = (none, position) := by
  simp [linearSearch, List.drop_eq_nil_of_le past]

theorem drop_of_getElem? (found : bottom[position]? = some entry) :
    bottom.drop position = entry :: bottom.drop (position + 1) := by
  obtain ⟨inside, rfl⟩ := List.getElem?_eq_some_iff.mp found
  exact List.drop_eq_getElem_cons inside

theorem linearSearch_reached (found : bottom[position]? = some entry)
    (reached : target ≤ entry.maxDocId) :
    linearSearch bottom position target = (some entry, position) := by
  simp [linearSearch, drop_of_getElem? found, reached, List.findIdx_cons]

theorem linearSearch_short (found : bottom[position]? = some entry)
    (short : entry.maxDocId < target) :
    linearSearch bottom position target = linearSearch bottom (position + 1) target := by
  have below : ¬ target ≤ entry.maxDocId := by omega
  simp only [linearSearch, drop_of_getElem? found, List.find?_cons, List.findIdx_cons, below,
    decide_false, cond_false, Prod.mk.injEq, true_and]
  omega

theorem linearSearch_skip {later : Nat} (ahead : position ≤ later) (inside : later ≤ bottom.length)
    (below : ∀ i, position ≤ i → i < later → ∀ entry, bottom[i]? = some entry →
      entry.maxDocId < target) :
    linearSearch bottom position target = linearSearch bottom later target := by
  induction later, ahead using Nat.le_induction with
  | base => rfl
  | succ later ahead ih =>
    have here : bottom[later]? = some bottom[later] := List.getElem?_eq_getElem inside
    have earlier := ih (by omega) fun i low high => below i low (by omega)
    exact earlier.trans (linearSearch_short here (below later ahead (by omega) _ here))

theorem linearSearch_le {q : Nat} (ahead : position ≤ q) (found : bottom[q]? = some entry)
    (reached : target ≤ entry.maxDocId) :
    (linearSearch bottom position target).2 ≤ q := by
  have inside : (bottom.drop position)[q - position]? = some entry := by
    simpa [List.getElem?_drop, Nat.add_sub_cancel' ahead] using found
  have first : (bottom.drop position).findIdx (fun entry => decide (target ≤ entry.maxDocId)) ≤
      q - position := by
    by_contra late
    obtain ⟨bound, value⟩ := List.getElem?_eq_some_iff.mp inside
    have missed := List.not_of_lt_findIdx (Nat.not_le.mp late)
    simp [value] at missed
    omega
  simp only [linearSearch]
  omega

theorem le_linearSearch (bottom : List BlockSkipEntry) (position target : Nat) :
    position ≤ (linearSearch bottom position target).2 := Nat.le_add_right _ _

theorem linearSearch_le_length (target : Nat) (inside : position ≤ bottom.length) :
    (linearSearch bottom position target).2 ≤ bottom.length := by
  have bound : (bottom.drop position).findIdx (fun entry => decide (target ≤ entry.maxDocId)) ≤
      (bottom.drop position).length := List.findIdx_le_length
  simp only [List.length_drop] at bound
  simp only [linearSearch]
  omega

theorem getElem?_linearSearch (bottom : List BlockSkipEntry) (position target : Nat) :
    bottom[(linearSearch bottom position target).2]? = (linearSearch bottom position target).1 := by
  simp only [linearSearch, ← List.getElem?_drop]
  generalize bottom.drop position = rest
  induction rest with
  | nil => rfl
  | cons entry rest ih =>
    by_cases reached : target ≤ entry.maxDocId <;> simp [List.findIdx_cons, reached, ih]

end Linear

theorem fromBlockRanges_wellFormed {ranges : List BlockSkipEntry} {skipList : BlockSkipList}
    (built : BlockSkipList.fromBlockRanges ranges = .ok skipList) :
    skipList.WellFormed ∧ skipList.bottom = ranges ∧
      (skipList.top = [] → ranges.length ≤ 1) := by
  unfold BlockSkipList.fromBlockRanges at built
  split at built
  · contradiction
  · rename_i gaps
    split at built
    · contradiction
    · rename_i bounds
      cases built
      have apart : ranges.IsChain fun a b => a.blockIndex < b.blockIndex ∧ a.maxDocId < b.minDocId := by
        have checked := (windows2_all_iff (fun a b : BlockSkipEntry =>
          decide (a.blockIndex < b.blockIndex ∧ a.maxDocId < b.minDocId)) ranges).mp (by
            simpa [List.all_eq_not_any_not] using gaps)
        simpa using checked
      have ordered : ∀ entry ∈ ranges, entry.minDocId ≤ entry.maxDocId := by
        simpa using bounds
      have ascending : ranges.Pairwise fun a b => a.maxDocId < b.maxDocId := by
        refine @List.IsChain.pairwise _ _ _ ⟨fun below below' => below.trans below'⟩ ?_
        rw [List.isChain_iff_getElem] at apart ⊢
        intro i inside
        exact (apart i inside).2.trans_le (ordered _ (List.getElem_mem inside))
      refine ⟨⟨ascending, ?_⟩, rfl, ?_⟩
      · by_cases single : ranges.length ≤ 1
        · exact .inl (if_pos single)
        · exact .inr (if_neg single)
      · intro flat
        by_contra long
        simp only [if_neg long] at flat
        have first := topLayer_getElem? ranges 0
        rw [flat] at first
        simp at first
        simp [first] at long

/-- A scan of all remaining blocks is the linear search, and visits what it passes. -/
theorem bottomScan_eq_linearSearch (bottom : List BlockSkipEntry) (target position visited : Nat) :
    bottomScan bottom target bottom.length position visited =
      ((linearSearch bottom position target).1, (linearSearch bottom position target).2,
        visited + ((linearSearch bottom position target).2 - position) +
          (linearSearch bottom position target).1.toList.length) := by
  fun_induction bottomScan bottom target bottom.length position visited with
  | case1 position visited below entry found reached =>
    simp [linearSearch_reached found reached]
  | case2 position visited below entry found short ih =>
    rw [ih, linearSearch_short found (by omega)]
    have ahead := le_linearSearch bottom (position + 1) target
    simp
    omega
  | case3 position visited below missing =>
    simp at missing
    omega
  | case4 position visited done =>
    simp [linearSearch_past (Nat.not_lt.mp done)]

theorem bottomScan_continue (bottom : List BlockSkipEntry) (target stop position visited : Nat)
    (inside : stop ≤ bottom.length) :
    bottomScan bottom target bottom.length position visited =
      match bottomScan bottom target stop position visited with
      | (some entry, position, visited) => (some entry, position, visited)
      | (none, position, visited) => bottomScan bottom target bottom.length position visited := by
  fun_induction bottomScan bottom target stop position visited with
  | case1 position visited below entry found reached =>
    rw [bottomScan, if_pos (by omega)]
    simp [found, reached]
  | case2 position visited below entry found short ih =>
    rw [bottomScan, if_pos (by omega)]
    simp [found, short, ih]
  | case3 position visited below missing =>
    simp at missing
    omega
  | case4 position visited done => rfl

theorem topJump_stops (top : List BlockSkipEntry) (target topIndex : Nat) :
    topIndex ≤ topJump top target topIndex ∧
      ∀ entry, top[topJump top target topIndex + 1]? = some entry → target ≤ entry.maxDocId := by
  fun_induction topJump top target topIndex with
  | case1 topIndex entry found below ih => exact ⟨by omega, ih.2⟩
  | case2 topIndex entry found reached =>
    exact ⟨le_rfl, fun other at_other => by simp_all⟩
  | case3 topIndex missing =>
    exact ⟨le_rfl, fun other at_other => by simp_all⟩

def BlockSkipCursor.scanStart (cursor : BlockSkipCursor) (target : Nat) : Nat :=
  if cursor.skipList.top = [] then cursor.position
  else max cursor.position
    (topJump cursor.skipList.top target (cursor.position / skipInterval) * skipInterval)

theorem BlockSkipCursor.advanceTo_eq_bottomScan (cursor : BlockSkipCursor) (target : Nat)
    (unfinished : cursor.position < cursor.skipList.bottom.length) :
    cursor.advanceTo target =
      let scan := bottomScan cursor.skipList.bottom target cursor.skipList.bottom.length
        (cursor.scanStart target) cursor.blocksVisited
      (scan.1, { cursor with position := scan.2.1, blocksVisited := scan.2.2 }) := by
  have continued := bottomScan_continue cursor.skipList.bottom target
    (min cursor.skipList.bottom.length (cursor.scanStart target + skipInterval * 2))
    (cursor.scanStart target) cursor.blocksVisited (Nat.min_le_left _ _)
  simp only [BlockSkipCursor.advanceTo, if_neg (Nat.not_le.mpr unfinished)]
  rw [continued]
  simp only [BlockSkipCursor.scanStart]
  split
  · rename_i found
    simp only [found]
  · rename_i missing
    simp only [missing]

/-- The scan starts at a block behind which nothing is missed, one interval before the answer
at most. -/
theorem BlockSkipCursor.scanStart_spec {ranges : List BlockSkipEntry} {skipList : BlockSkipList}
    (built : BlockSkipList.fromBlockRanges ranges = .ok skipList) (cursor : BlockSkipCursor)
    (holds : cursor.skipList = skipList) (target : Nat)
    (unfinished : cursor.position < ranges.length) :
    linearSearch ranges cursor.position target =
        linearSearch ranges (cursor.scanStart target) target ∧
      cursor.position ≤ cursor.scanStart target ∧
      (linearSearch ranges cursor.position target).2 ≤ cursor.scanStart target + skipInterval := by
  obtain ⟨⟨ascending, layered⟩, rfl, single⟩ := fromBlockRanges_wellFormed built
  subst holds
  by_cases flat : cursor.skipList.top = []
  · simp only [BlockSkipCursor.scanStart, if_pos flat, true_and, le_refl]
    have bound := linearSearch_le_length target unfinished.le
    have short := single flat
    simp only [skipInterval]
    omega
  · have layer := layered.resolve_left flat
    simp only [BlockSkipCursor.scanStart, if_neg flat]
    obtain ⟨k, hk⟩ : ∃ k, k = topJump cursor.skipList.top target
      (cursor.position / skipInterval) := ⟨_, rfl⟩
    obtain ⟨ahead, stops⟩ := topJump_stops cursor.skipList.top target
      (cursor.position / skipInterval)
    have moved := topJump_spec cursor.skipList.top target (cursor.position / skipInterval)
    rw [← hk] at ahead stops moved ⊢
    simp only [layer, topLayer_getElem?] at stops moved
    simp only [skipInterval] at ahead stops moved ⊢
    have behind : ∀ i, cursor.position ≤ i → i < max cursor.position (k * 8) →
        ∀ entry, cursor.skipList.bottom[i]? = some entry → entry.maxDocId < target := by
      intro i low high entry at_i
      cases moved with
      | inl stays => omega
      | inr jumped =>
        obtain ⟨landed, at_top, below⟩ := jumped
        exact maxDocId_lt_of_le ascending (by omega) at_i at_top below
    have inside : max cursor.position (k * 8) ≤ cursor.skipList.bottom.length := by
      cases moved with
      | inl stays => omega
      | inr jumped =>
        obtain ⟨landed, at_top, below⟩ := jumped
        have reach := (List.getElem?_eq_some_iff.mp at_top).1
        omega
    refine ⟨linearSearch_skip (le_max_left _ _) inside behind, le_max_left _ _, ?_⟩
    cases next : cursor.skipList.bottom[8 * (k + 1)]? with
    | some entry =>
      have bound := linearSearch_le (by omega : cursor.position ≤ 8 * (k + 1)) next
        (stops entry next)
      omega
    | none =>
      have bound := linearSearch_le_length target unfinished.le
      simp only [List.getElem?_eq_none_iff] at next
      omega

theorem BlockSkipCursor.advanceTo_linearSearch {ranges : List BlockSkipEntry}
    {skipList : BlockSkipList} (built : BlockSkipList.fromBlockRanges ranges = .ok skipList)
    (cursor : BlockSkipCursor) (holds : cursor.skipList = skipList) (target : Nat) :
    (cursor.advanceTo target).1 = (linearSearch ranges cursor.position target).1 ∧
      (cursor.advanceTo target).2.position = (linearSearch ranges cursor.position target).2 ∧
      (cursor.advanceTo target).2.skipList = skipList ∧
      (cursor.advanceTo target).2.blocksVisited ≤ cursor.blocksVisited + (skipInterval + 1) := by
  obtain ⟨-, bottom, -⟩ := fromBlockRanges_wellFormed built
  by_cases unfinished : cursor.position < ranges.length
  · obtain ⟨same, ahead, near⟩ := cursor.scanStart_spec built holds target unfinished
    rw [cursor.advanceTo_eq_bottomScan target (by rw [holds, bottom]; exact unfinished),
      bottomScan_eq_linearSearch, holds, bottom, ← same]
    refine ⟨rfl, rfl, rfl, ?_⟩
    have last : (linearSearch ranges cursor.position target).1.toList.length ≤ 1 := by
      cases (linearSearch ranges cursor.position target).1 <;> simp
    simp only
    omega
  · have past : cursor.position ≥ cursor.skipList.bottom.length := by
      rw [holds, bottom]
      omega
    have still : cursor.advanceTo target = (none, cursor) := if_pos past
    simp [still, holds, linearSearch_past (Nat.not_lt.mp unfinished)]

/-- Over an accepted list, from any position and after any targets, a cursor answers as the
linear search does, stands where that search stopped, and has looked at few blocks. -/
theorem BlockSkipCursor.run_linear {ranges : List BlockSkipEntry} {skipList : BlockSkipList}
    (built : BlockSkipList.fromBlockRanges ranges = .ok skipList) (position : Nat)
    (targets : List Nat) (target : Nat) :
    let cursor := finalState BlockSkipCursor.advanceTo (.resume skipList position) targets
    let answer := cursor.advanceTo target
    answer.1 = (ranges.drop cursor.position).find? (fun entry => target ≤ entry.maxDocId) ∧
      (answer.1 = none ↔ ∀ entry ∈ ranges.drop cursor.position, entry.maxDocId < target) ∧
      (∀ entry, answer.1 = some entry → ranges[answer.2.position]? = some entry) ∧
      (answer.1 = none → answer.2.position = max cursor.position ranges.length) ∧
      cursor.position ≤ answer.2.position ∧
      answer.2.blocksVisited ≤ cursor.blocksVisited + (skipInterval + 1) := by
  have holds := finalState_invariant
    (fun cursor target holds => (advanceTo_linearSearch built cursor holds target).2.2.1)
    (BlockSkipCursor.resume_skipList skipList position) targets
  intro cursor answer
  obtain ⟨reported, stops, -, visited⟩ := advanceTo_linearSearch built cursor holds target
  have found := getElem?_linearSearch ranges cursor.position target
  refine ⟨reported, ?_, ?_, ?_, ?_, visited⟩
  · simp [answer, reported, linearSearch]
  · intro entry present
    rw [stops, found, ← reported, present]
  · intro missing
    have none_from : linearSearch ranges cursor.position target =
        (none, cursor.position + (ranges.length - cursor.position)) := by
      have nothing := reported.symm.trans missing
      simp only [linearSearch] at nothing ⊢
      rw [nothing, List.findIdx_eq_length_of_false (by simpa using nothing), List.length_drop]
    rw [stops, none_from]
    simp only
    omega
  · rw [stops]
    exact le_linearSearch ranges cursor.position target

def twentyBlocks : List BlockSkipEntry :=
  (List.range 20).map fun i => { blockIndex := i, minDocId := 100 * i, maxDocId := 100 * i + 99 }

theorem run_linear_twentyBlocks :
    let skipList := { bottom := twentyBlocks, top := topLayer twentyBlocks }
    BlockSkipList.fromBlockRanges twentyBlocks = .ok skipList ∧
      let cursor := finalState BlockSkipCursor.advanceTo (.resume skipList 3) [420, 1150]
      let answer := cursor.advanceTo 1901
      answer.1 =
        (twentyBlocks.drop cursor.position).find? (fun entry => 1901 ≤ entry.maxDocId) :=
  ⟨rfl, (BlockSkipCursor.run_linear rfl 3 [420, 1150] 1901).1⟩

end Surch.Codec
