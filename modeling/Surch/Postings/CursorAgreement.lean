import Surch.Postings.Cursor

/-! The cursors against the linear walk. Each one is shown to stop at `firstFrom` of its
own position; agreement over a run of targets is then one simulation for each cursor. -/
namespace Surch.Postings
open Surch.Lib Surch.Codec

theorem linearWalk_eq (entries : List (Nat × Nat)) (target : Nat) :
    linearWalk entries target =
      (entries[entries.findIdx fun entry => target ≤ entry.1]?,
        entries.drop ((entries.findIdx fun entry => target ≤ entry.1) + 1)) := by
  induction entries with
  | nil => simp [linearWalk]
  | cons entry rest ih =>
    by_cases reached : target ≤ entry.1
    · simp [linearWalk, reached, List.findIdx_cons]
    · simp [linearWalk, reached, List.findIdx_cons, ih]

theorem linearWalk_drop (entries : List (Nat × Nat)) (target p : Nat) :
    linearWalk (entries.drop p) target =
      (entries[firstFrom (entries.map Prod.fst) target p]?,
        entries.drop (firstFrom (entries.map Prod.fst) target p + 1)) := by
  have same : ((entries.map Prod.fst).drop p).findIdx (fun d => decide (target ≤ d)) =
      (entries.drop p).findIdx fun entry => decide (target ≤ entry.1) := by
    rw [← List.map_drop, List.findIdx_map]
    rfl
  rw [linearWalk_eq, firstFrom, same, List.getElem?_drop, List.drop_drop, Nat.add_assoc]

theorem gallopDoublings_spec (rest : List Nat) (target doublings : Nat) :
    (gallopDoublings rest target doublings = doublings ∨
      ∃ k docId, gallopDoublings rest target doublings = k + 1 ∧ rest[2 ^ k]? = some docId ∧
        docId < target) ∧
    ∀ docId, rest[2 ^ gallopDoublings rest target doublings]? = some docId → target ≤ docId := by
  fun_induction gallopDoublings rest target doublings with
  | case1 doublings docId found below ih =>
    refine ⟨.inr ?_, ih.2⟩
    cases ih.1 with
    | inl stays => exact ⟨doublings, docId, stays, found, below⟩
    | inr further => exact further
  | case2 doublings docId found reached =>
    refine ⟨.inl rfl, fun other at_other => ?_⟩
    rw [found] at at_other
    cases at_other
    omega
  | case3 doublings missing =>
    refine ⟨.inl rfl, fun other at_other => ?_⟩
    rw [missing] at at_other
    cases at_other

/-- Galloping an ascending slice finds the first element that reaches the target. -/
theorem gallopOffset_eq (rest : List Nat) (target : Nat) (ascending : rest.Pairwise (· < ·)) :
    gallopOffset rest target = firstFrom rest target 0 := by
  obtain ⟨before, after⟩ := gallopDoublings_spec rest target 0
  obtain ⟨hi, hhi⟩ : ∃ hi, hi = 2 ^ gallopDoublings rest target 0 := ⟨_, rfl⟩
  rw [← hhi] at after
  have low : hi >>> 1 ≤ min hi rest.length ∧
      ∀ i, i < hi >>> 1 → ∀ inside : i < rest.length, rest[i] < target := by
    cases before with
    | inl stays =>
      rw [stays] at hhi
      subst hhi
      exact ⟨Nat.zero_le _, fun i small => absurd small (Nat.not_lt_zero i)⟩
    | inr jumped =>
      obtain ⟨k, docId, doubled, at_k, below⟩ := jumped
      rw [doubled, Nat.pow_succ] at hhi
      have half : hi >>> 1 = 2 ^ k := by
        rw [hhi, Nat.shiftRight_eq_div_pow]
        omega
      obtain ⟨inside_k, rfl⟩ := List.getElem?_eq_some_iff.mp at_k
      rw [half]
      refine ⟨by omega, fun i small inside => ?_⟩
      exact lt_of_le_of_lt_getElem ascending small.le inside_k below
  have searched : gallopOffset rest target =
      firstFrom (rest.take (min hi rest.length)) target (hi >>> 1) := by
    rw [gallopOffset, ← hhi]
    rfl
  have taken : (rest.take (min hi rest.length)).length = min hi rest.length := by
    rw [List.length_take]
    omega
  obtain ⟨q, hq⟩ : ∃ q, q = firstFrom (rest.take (min hi rest.length)) target (hi >>> 1) :=
    ⟨_, rfl⟩
  have room : hi >>> 1 ≤ (rest.take (min hi rest.length)).length := by
    rw [taken]
    exact low.1
  have reach := firstFrom_le _ target room
  rw [taken, ← hq] at reach
  have start : hi >>> 1 ≤ q := by
    rw [hq]
    exact le_firstFrom _ target _
  rw [searched, ← hq]
  symm
  apply eq_firstFrom rest target (Nat.zero_le _) (by omega)
  · intro i _ early inside
    by_cases small : i < hi >>> 1
    · exact low.2 i small inside
    · have below := lt_of_lt_firstFrom (rest.take (min hi rest.length)) target (Nat.not_lt.mp small)
        (by rw [← hq]; exact early) (by omega)
      rwa [List.getElem_take] at below
  · intro inside
    by_cases found : q < min hi rest.length
    · have large := firstFrom_le_getElem (rest.take (min hi rest.length)) target
        (by rw [← hq, taken]; exact found)
      simpa only [← hq, List.getElem_take] using large
    · have edge : q = hi := by omega
      exact after _ (by rw [← edge]; exact List.getElem?_eq_getElem inside)

theorem gallopOffset_drop (docs : List Nat) (target p : Nat) (ascending : docs.Pairwise (· < ·)) :
    p + gallopOffset (docs.drop p) target = firstFrom docs target p := by
  rw [gallopOffset_eq _ _ (ascending.sublist (List.drop_sublist p docs))]
  simp [firstFrom]

section Ram

variable {docIds : List Nat}

theorem blockSkipEntries_getElem? (docIds : List Nat) (b : Nat) :
    (blockSkipEntries docIds)[b]? =
      if forBlockSize * b < docIds.length then
        some { blockIndex := b
               minDocId := (blockDocs docIds b).headD 0
               maxDocId := (blockDocs docIds b).getLastD 0 }
      else none := by
  rw [blockSkipEntries, List.getElem?_mapIdx, blockSize, chunks_getElem? forBlockSize_pos]
  split <;> rfl

theorem blockDocs_headD (docIds : List Nat) (b : Nat) (inside : forBlockSize * b < docIds.length) :
    docIds[forBlockSize * b]? = some ((blockDocs docIds b).headD 0) := by
  have first := blockDocs_getElem? docIds b 0 (by decide)
  rw [Nat.add_zero, List.getElem?_eq_getElem inside] at first
  rw [List.getElem?_eq_getElem inside, List.headD_eq_head?_getD, List.head?_eq_getElem?, first,
    Option.getD_some]

theorem blockSkipEntries_some {b : Nat} {entry : BlockSkipEntry}
    (found : (blockSkipEntries docIds)[b]? = some entry) :
    forBlockSize * b < docIds.length ∧ entry.blockIndex = b ∧
      docIds[forBlockSize * b]? = some entry.minDocId ∧
      docIds[min (forBlockSize * (b + 1)) docIds.length - 1]? = some entry.maxDocId := by
  rw [blockSkipEntries_getElem?] at found
  split at found
  · rename_i inside
    cases found
    exact ⟨inside, rfl, blockDocs_headD docIds b inside, (blockDocs_getLastD docIds b inside).symm⟩
  · cases found

/-- A block whose maximum lies below the target lies below it entirely, and so does all that
comes before. -/
theorem lt_of_block_below (ascending : docIds.Pairwise (· < ·)) {b target : Nat}
    {entry : BlockSkipEntry} (found : (blockSkipEntries docIds)[b]? = some entry)
    (below : entry.maxDocId < target) (i : Nat) (early : i < forBlockSize * (b + 1))
    (inside : i < docIds.length) : docIds[i] < target := by
  obtain ⟨block, _, _, last⟩ := blockSkipEntries_some found
  obtain ⟨bound, value⟩ := List.getElem?_eq_some_iff.mp last
  apply lt_of_le_of_lt_getElem ascending (j := min (forBlockSize * (b + 1)) docIds.length - 1)
    (by omega) bound
  rw [value]
  exact below

theorem blockSkipEntries_ascending (ascending : docIds.Pairwise (· < ·)) :
    (blockSkipEntries docIds).Pairwise fun a b => a.maxDocId < b.maxDocId := by
  rw [List.pairwise_iff_getElem]
  intro i j inside_i inside_j ordered
  obtain ⟨_, _, _, last_i⟩ := blockSkipEntries_some (List.getElem?_eq_getElem inside_i)
  obtain ⟨block_j, _, _, last_j⟩ := blockSkipEntries_some (List.getElem?_eq_getElem inside_j)
  apply lt_of_getElem? ascending last_i last_j
  simp only [forBlockSize] at block_j ⊢
  omega

theorem fromBlockRanges_ok (ascending : docIds.Pairwise (· < ·)) :
    ∃ skipList, BlockSkipList.fromBlockRanges (blockSkipEntries docIds) = .ok skipList ∧
      skipList.WellFormed ∧ skipList.bottom = blockSkipEntries docIds := by
  have windows : ((windows2 (blockSkipEntries docIds)).any fun pair =>
      pair.1.blockIndex ≥ pair.2.blockIndex || pair.1.maxDocId ≥ pair.2.minDocId) = false := by
    rw [List.any_eq_false]
    intro pair member
    obtain ⟨b, first, second⟩ := exists_index_of_mem_windows2 member
    obtain ⟨_, index₁, _, last⟩ := blockSkipEntries_some first
    obtain ⟨block, index₂, next, _⟩ := blockSkipEntries_some second
    have gap : pair.1.maxDocId < pair.2.minDocId := by
      apply lt_of_getElem? ascending last next
      simp only [forBlockSize] at block ⊢
      omega
    simp only [index₁, index₂, Bool.or_eq_true, decide_eq_true_eq]
    omega
  have ranges : ((blockSkipEntries docIds).any fun entry =>
      entry.minDocId > entry.maxDocId) = false := by
    rw [List.any_eq_false]
    intro entry member
    obtain ⟨b, at_b⟩ := List.mem_iff_getElem?.mp member
    obtain ⟨block, _, first, last⟩ := blockSkipEntries_some at_b
    simp only [decide_eq_true_eq, not_lt]
    by_cases single : forBlockSize * b = min (forBlockSize * (b + 1)) docIds.length - 1
    · rw [← single, first] at last
      exact le_of_eq (Option.some.inj last)
    · apply le_of_lt
      apply lt_of_getElem? ascending first last
      simp only [forBlockSize] at single block ⊢
      omega
  refine ⟨_, by rw [BlockSkipList.fromBlockRanges, if_neg (by simp [windows]),
    if_neg (by simp [ranges])], ⟨blockSkipEntries_ascending ascending, ?_⟩, rfl⟩
  by_cases single : (blockSkipEntries docIds).length ≤ 1
  · exact .inl (if_pos single)
  · exact .inr (if_neg single)

theorem skipIter_ok (ascending : docIds.Pairwise (· < ·)) (nonempty : docIds ≠ []) :
    ∃ skipList, skipIter docIds = .ok (some
        { docIds, skipList, cursorPosition := 0, position := 0, blocksSkipped := 0 }) ∧
      skipList.WellFormed ∧ skipList.bottom = blockSkipEntries docIds := by
  obtain ⟨skipList, built, wellFormed, bottom⟩ := fromBlockRanges_ok ascending
  refine ⟨skipList, ?_, wellFormed, bottom⟩
  rw [skipIter, blockSkipList, if_neg nonempty, built]
  rfl

/-- The iterator after a walk has consumed `p` entries, all targets so far being at most
`target`. The iterator may lag behind when a walk ran past the last posting. -/
structure Lags (docIds : List Nat) (target : Nat) (iter : PostingsBlockSkipIter) (p : Nat) :
    Prop where
  docs : iter.docIds = docIds
  wellFormed : iter.skipList.WellFormed
  bottom : iter.skipList.bottom = blockSkipEntries docIds
  bounded : p ≤ docIds.length
  behind : iter.position ≤ p
  skipped : ∀ i, iter.position ≤ i → i < p → ∀ inside : i < docIds.length, docIds[i] < target
  cursor : iter.cursorPosition ≤ (blockSkipEntries docIds).length
  passed : ∀ b, b < iter.cursorPosition → ∀ entry, (blockSkipEntries docIds)[b]? = some entry →
    entry.maxDocId < target

theorem Lags.later {last target p : Nat} {iter : PostingsBlockSkipIter}
    (lags : Lags docIds last iter p) (ordered : last ≤ target) : Lags docIds target iter p :=
  { lags with
    skipped := fun i low high inside => (lags.skipped i low high inside).trans_le ordered
    passed := fun b early entry at_b => (lags.passed b early entry at_b).trans_le ordered }

theorem leapfrog_spec (ascending : docIds.Pairwise (· < ·)) {iter : PostingsBlockSkipIter}
    {last target p : Nat} (lags : Lags docIds last iter p) (ordered : last ≤ target)
    (unfinished : iter.position < docIds.length) :
    (iter.leapfrog target = none ∧ ∀ i, ∀ inside : i < docIds.length, docIds[i] < target) ∨
      ∃ moved, iter.leapfrog target = some moved ∧
        iter.position ≤ moved.position ∧ moved.position ≤ docIds.length ∧
        (∀ i, iter.position ≤ i → i < moved.position → ∀ inside : i < docIds.length,
          docIds[i] < target) ∧
        moved.docIds = docIds ∧ moved.skipList = iter.skipList ∧
        moved.cursorPosition ≤ (blockSkipEntries docIds).length ∧
        ∀ b, b < moved.cursorPosition → ∀ entry, (blockSkipEntries docIds)[b]? = some entry →
          entry.maxDocId < target := by
  have still := (lags.later ordered).passed
  unfold PostingsBlockSkipIter.leapfrog
  rw [lags.bottom]
  split
  · rename_i current at_current
    split
    · rename_i below
      obtain ⟨q, after, bounded, between, position, _, landed, reached⟩ :=
        (BlockSkipCursor.resume iter.skipList iter.cursorPosition).advanceTo_spec target
          lags.wellFormed (lags.cursor.trans_eq (congrArg List.length lags.bottom.symm))
      simp only [BlockSkipCursor.resume_skipList, BlockSkipCursor.resume_position,
        lags.bottom] at after bounded between landed reached
      -- every block before the landing block lies below the target
      have passed : ∀ b, b < q → ∀ entry, (blockSkipEntries docIds)[b]? = some entry →
          entry.maxDocId < target := by
        intro b early
        by_cases known : b < iter.cursorPosition
        · exact still b known
        · exact between b (by omega) early
      split
      · rename_i exhausted
        rw [exhausted] at landed
        refine .inl ⟨rfl, fun i inside => ?_⟩
        have all := List.getElem?_eq_none_iff.mp landed.symm
        have block : forBlockSize * (i / forBlockSize) < docIds.length := by
          simp only [forBlockSize]
          omega
        have at_block := blockSkipEntries_getElem? docIds (i / forBlockSize)
        rw [if_pos block] at at_block
        have early : i / forBlockSize < (blockSkipEntries docIds).length :=
          (List.getElem?_eq_some_iff.mp at_block).1
        exact lt_of_block_below ascending at_block (passed _ (by omega) _ at_block) i
          (by simp only [forBlockSize]; omega) inside
      · rename_i entry cursor landing
        rw [landing] at landed position
        obtain ⟨block, index, _, _⟩ := blockSkipEntries_some landed.symm
        have ahead : iter.position / blockSize < q := by
          by_contra early
          have := maxDocId_lt_of_le (blockSkipEntries_ascending ascending) (by omega) landed.symm
            at_current below
          have := reached entry landed.symm
          omega
        have positive : 0 < q := Nat.zero_lt_of_lt ahead
        have start : entry.blockIndex * blockSize = forBlockSize * q := by
          rw [index, blockSize, Nat.mul_comm]
        have jump : iter.position < forBlockSize * q := by
          simp only [blockSize, forBlockSize] at ahead ⊢
          omega
        right
        rw [start, if_pos jump]
        refine ⟨_, rfl, jump.le, block.le, ?_, lags.docs, rfl, ?_, ?_⟩
        · intro i _ early inside
          have block' : forBlockSize * (q - 1) < docIds.length := by
            simp only [forBlockSize] at block ⊢
            omega
          have at_block := blockSkipEntries_getElem? docIds (q - 1)
          rw [if_pos block'] at at_block
          refine lt_of_block_below ascending at_block (passed _ (by omega) _ at_block) i ?_ inside
          rwa [Nat.sub_add_cancel (by omega)]
        · rw [position]
          exact bounded
        · rw [position]
          exact passed
    · exact .inr ⟨iter, rfl, le_rfl, unfinished.le, fun i low high => by omega, lags.docs, rfl,
        lags.cursor, still⟩
  · exact .inr ⟨iter, rfl, le_rfl, unfinished.le, fun i low high => by omega, lags.docs, rfl,
      lags.cursor, still⟩

def ramStep (freqs : List Nat) (iter : PostingsBlockSkipIter) (target : Nat) :
    Option (Nat × Nat) × PostingsBlockSkipIter :=
  let (answer, iter) := iter.advanceTo target
  (answer.map fun docId => (docId, freqs.getD (iter.position - 1) 0), iter)

theorem advanceTo_spec (ascending : docIds.Pairwise (· < ·)) {iter : PostingsBlockSkipIter}
    {last target p : Nat} (lags : Lags docIds last iter p) (ordered : last ≤ target) :
    ∃ q, q = firstFrom docIds target p ∧ (iter.advanceTo target).1 = docIds[q]? ∧
      (q < docIds.length → (iter.advanceTo target).2.position = q + 1) ∧
      Lags docIds target (iter.advanceTo target).2 (min (q + 1) docIds.length) := by
  refine ⟨_, rfl, ?_⟩
  have below := (lags.later ordered).skipped
  have passed := (lags.later ordered).passed
  have from_iter : firstFrom docIds target iter.position = firstFrom docIds target p :=
    firstFrom_skip docIds target lags.behind lags.bounded below
  have reach := firstFrom_le docIds target lags.bounded
  rw [← from_iter] at reach ⊢
  -- without a posting that reaches the target the iterator may stay where it is
  have stays : firstFrom docIds target iter.position = docIds.length →
      Lags docIds target iter docIds.length := by
    intro all
    refine ⟨lags.docs, lags.wellFormed, lags.bottom, le_rfl, lags.behind.trans lags.bounded, ?_,
      lags.cursor, passed⟩
    intro i low high inside
    exact lt_of_lt_firstFrom docIds target low (by omega) inside
  unfold PostingsBlockSkipIter.advanceTo
  rw [lags.docs]
  split
  · rename_i exhausted
    have all : firstFrom docIds target iter.position = docIds.length := by
      have := le_firstFrom docIds target iter.position
      omega
    rw [all]
    refine ⟨by simp, fun impossible => absurd impossible (lt_irrefl _), ?_⟩
    rw [Nat.min_eq_right (by omega)]
    exact stays all
  · rename_i unfinished
    rcases leapfrog_spec ascending lags ordered (by omega) with ⟨nothing, every⟩ | ⟨moved, leapt,
      ahead, inside, between, docs, skipList, cursor, passed'⟩
    · have all : firstFrom docIds target iter.position = docIds.length := by
        refine eq_firstFrom docIds target (by omega) le_rfl (fun i _ _ => every i) ?_
        intro impossible
        exact absurd impossible (lt_irrefl _)
      rw [nothing, all]
      refine ⟨by simp, fun impossible => absurd impossible (lt_irrefl _), ?_⟩
      rw [Nat.min_eq_right (by omega)]
      exact stays all
    · have from_moved : firstFrom docIds target iter.position =
          firstFrom docIds target moved.position :=
        firstFrom_skip docIds target ahead inside between
      have galloped := gallopOffset_drop docIds target moved.position ascending
      rw [leapt, from_moved]
      simp only [PostingsBlockSkipIter.scan, docs, List.getElem?_drop, galloped]
      split
      · rename_i missing
        have all : firstFrom docIds target moved.position = docIds.length := by
          have := List.getElem?_eq_none_iff.mp missing
          omega
        rw [all]
        refine ⟨by simp, fun impossible => absurd impossible (lt_irrefl _), ?_⟩
        rw [Nat.min_eq_right (by omega)]
        exact ⟨rfl, skipList ▸ lags.wellFormed, skipList ▸ lags.bottom, le_rfl, le_rfl,
          fun i low high => absurd high (Nat.not_lt.mpr low), cursor, passed'⟩
      · rename_i docId found
        have hit := (List.getElem?_eq_some_iff.mp found).1
        refine ⟨found.symm, fun _ => rfl, ?_⟩
        rw [Nat.min_eq_left (by omega)]
        exact ⟨rfl, skipList ▸ lags.wellFormed, skipList ▸ lags.bottom, by omega, le_rfl,
          fun i low high => absurd high (Nat.not_lt.mpr low), cursor, passed'⟩

theorem entries_getElem? {freqs : List Nat} (aligned : docIds.length = freqs.length) (q : Nat) :
    (docIds.zip freqs)[q]? = docIds[q]?.map fun docId => (docId, freqs.getD q 0) := by
  rw [List.zip, List.getElem?_zipWith, List.getD_eq_getElem?_getD]
  by_cases inside : q < docIds.length
  · rw [List.getElem?_eq_getElem inside, List.getElem?_eq_getElem (aligned ▸ inside)]
    rfl
  · rw [List.getElem?_eq_none (by omega)]
    rfl

/-- One step of the iterator and one step of the walk give the same posting. -/
theorem ramStep_linearWalk {freqs : List Nat} (aligned : docIds.length = freqs.length)
    (ascending : docIds.Pairwise (· < ·)) {iter : PostingsBlockSkipIter} {last target p : Nat}
    (lags : Lags docIds last iter p) (ordered : last ≤ target) :
    (ramStep freqs iter target).1 = (linearWalk ((docIds.zip freqs).drop p) target).1 ∧
      ∃ p', (linearWalk ((docIds.zip freqs).drop p) target).2 = (docIds.zip freqs).drop p' ∧
        Lags docIds target (ramStep freqs iter target).2 p' := by
  obtain ⟨q, hq, answer, position, next⟩ := advanceTo_spec ascending lags ordered
  have docs : (docIds.zip freqs).map Prod.fst = docIds := List.map_fst_zip aligned.le
  rw [linearWalk_drop, docs, ← hq, entries_getElem? aligned]
  constructor
  · simp only [ramStep, answer]
    cases found : docIds[q]? with
    | none => rfl
    | some docId =>
      have inside := (List.getElem?_eq_some_iff.mp found).1
      simp only [Option.map_some, position inside, Nat.add_sub_cancel]
  · refine ⟨min (q + 1) docIds.length, ?_, next⟩
    have size : (docIds.zip freqs).length = docIds.length := by
      rw [List.length_zip]
      omega
    by_cases inside : q + 1 ≤ docIds.length
    · rw [Nat.min_eq_left inside]
    · rw [List.drop_of_length_le (by omega), List.drop_of_length_le (by omega)]

end Ram

end Surch.Postings
