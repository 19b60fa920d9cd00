import Surch.Codec.Blocked
import Surch.Lib.Walk

/-! `BlockSkipList` and its cursor: a bottom layer with one entry per block and a top
layer with one entry per eight blocks, searched forward only. -/
namespace Surch.Codec
open Surch.Lib

def skipInterval : Nat := 8

structure BlockSkipEntry where
  blockIndex : Nat
  minDocId : Nat
  maxDocId : Nat
deriving DecidableEq, Repr

structure BlockSkipList where
  bottom : List BlockSkipEntry
  top : List BlockSkipEntry
deriving DecidableEq, Repr

/- The first entry of every run of eight, as `step_by` yields them. -/
def topLayer (bottom : List BlockSkipEntry) : List BlockSkipEntry :=
  (chunks skipInterval bottom).filterMap List.head?

def BlockSkipList.fromBlockRanges (bottom : List BlockSkipEntry) :
    Except PostingsBlockError BlockSkipList :=
  if (windows2 bottom).any fun pair =>
      pair.1.blockIndex ≥ pair.2.blockIndex || pair.1.maxDocId ≥ pair.2.minDocId then
    .error .notMonotonic
  else if bottom.any fun entry => entry.minDocId > entry.maxDocId then .error .notMonotonic
  else .ok { bottom, top := if bottom.length ≤ 1 then [] else topLayer bottom }

structure BlockSkipCursor where
  skipList : BlockSkipList
  position : Nat
  blocksVisited : Nat

def BlockSkipCursor.resume (skipList : BlockSkipList) (position : Nat) : BlockSkipCursor :=
  { skipList, position, blocksVisited := 0 }

@[simp] theorem BlockSkipCursor.resume_skipList (skipList : BlockSkipList) (position : Nat) :
    (BlockSkipCursor.resume skipList position).skipList = skipList := rfl

@[simp] theorem BlockSkipCursor.resume_position (skipList : BlockSkipList) (position : Nat) :
    (BlockSkipCursor.resume skipList position).position = position := rfl

def topJump (top : List BlockSkipEntry) (target topIndex : Nat) : Nat :=
  match found : top[topIndex + 1]? with
  | some entry => if entry.maxDocId < target then topJump top target (topIndex + 1) else topIndex
  | none => topIndex
termination_by top.length - topIndex
decreasing_by
  have := (List.getElem?_eq_some_iff.mp found).1
  omega

/- One of the two bottom-layer scans; the second component counts the visited entries. -/
def bottomScan (bottom : List BlockSkipEntry) (target stop position visited : Nat) :
    Option BlockSkipEntry × Nat × Nat :=
  if position < stop then
    match bottom[position]? with
    | some entry =>
      if entry.maxDocId ≥ target then (some entry, position, visited + 1)
      else bottomScan bottom target stop (position + 1) (visited + 1)
    | none => (none, position, visited)
  else (none, position, visited)
termination_by stop - position

def BlockSkipCursor.advanceTo (cursor : BlockSkipCursor) (target : Nat) :
    Option BlockSkipEntry × BlockSkipCursor :=
  let bottom := cursor.skipList.bottom
  let top := cursor.skipList.top
  if cursor.position ≥ bottom.length then (none, cursor)
  else
    let position :=
      if top = [] then cursor.position
      else max cursor.position (topJump top target (cursor.position / skipInterval) * skipInterval)
    let stop := min bottom.length (position + skipInterval * 2)
    match bottomScan bottom target stop position cursor.blocksVisited with
    | (some entry, position, visited) =>
      (some entry, { cursor with position, blocksVisited := visited })
    | (none, position, visited) =>
      let (entry, position, visited) := bottomScan bottom target bottom.length position visited
      (entry, { cursor with position, blocksVisited := visited })

theorem topLayer_getElem? (bottom : List BlockSkipEntry) (i : Nat) :
    (topLayer bottom)[i]? = bottom[skipInterval * i]? := by
  have positive : 0 < skipInterval := by decide
  induction bottom using chunks_induction positive generalizing i with
  | nil => simp [topLayer]
  | step bottom nonempty ih =>
    obtain ⟨entry, rest, rfl⟩ := List.exists_cons_of_ne_nil nonempty
    have unfolded : topLayer (entry :: rest) =
        entry :: topLayer ((entry :: rest).drop skipInterval) := by
      rw [topLayer, chunks_of_ne_nil positive nonempty]
      rfl
    cases i with
    | zero => rw [unfolded]; rfl
    | succ i =>
      rw [unfolded, List.getElem?_cons_succ, ih, List.getElem?_drop, Nat.mul_succ, Nat.add_comm]

theorem topJump_spec (top : List BlockSkipEntry) (target topIndex : Nat) :
    topJump top target topIndex = topIndex ∨
      ∃ entry, top[topJump top target topIndex]? = some entry ∧ entry.maxDocId < target := by
  fun_induction topJump top target topIndex with
  | case1 topIndex entry found below ih =>
    cases ih with
    | inl stays => exact .inr ⟨entry, by rw [stays]; exact found, below⟩
    | inr jumped => exact .inr jumped
  | case2 topIndex entry found reached => exact .inl rfl
  | case3 topIndex missing => exact .inl rfl

theorem bottomScan_spec (bottom : List BlockSkipEntry) (target stop position visited : Nat)
    (inside : stop ≤ bottom.length) (start : position ≤ stop) :
    ∃ q, position ≤ q ∧ q ≤ stop ∧
      (∀ i, position ≤ i → i < q → ∀ entry, bottom[i]? = some entry → entry.maxDocId < target) ∧
      (bottomScan bottom target stop position visited).2.1 = q ∧
      ((q = stop ∧ (bottomScan bottom target stop position visited).1 = none) ∨
        ∃ entry, bottom[q]? = some entry ∧ target ≤ entry.maxDocId ∧
          (bottomScan bottom target stop position visited).1 = some entry) := by
  fun_induction bottomScan bottom target stop position visited with
  | case1 position visited below entry found reached =>
    exact ⟨position, le_rfl, start, fun i low high => by omega, rfl,
      .inr ⟨entry, found, reached, rfl⟩⟩
  | case2 position visited below entry found short ih =>
    obtain ⟨q, after, bounded, passed, final, outcome⟩ := ih (by omega)
    refine ⟨q, by omega, bounded, ?_, final, outcome⟩
    intro i low high other at_i
    rcases Nat.eq_or_lt_of_le low with rfl | later
    · rw [found] at at_i
      cases at_i
      omega
    · exact passed i later high other at_i
  | case3 position visited below missing =>
    rw [List.getElem?_eq_none_iff] at missing
    omega
  | case4 position visited done =>
    exact ⟨position, le_rfl, start, fun i low high => by omega, rfl, .inl ⟨by omega, rfl⟩⟩

/-- A skip list as `fromBlockRanges` builds it over ascending blocks. -/
structure BlockSkipList.WellFormed (skipList : BlockSkipList) : Prop where
  ascending : skipList.bottom.Pairwise fun a b => a.maxDocId < b.maxDocId
  layered : skipList.top = [] ∨ skipList.top = topLayer skipList.bottom

theorem maxDocId_lt_of_le {bottom : List BlockSkipEntry} {target i j : Nat}
    (ascending : bottom.Pairwise fun a b => a.maxDocId < b.maxDocId) (ordered : i ≤ j)
    {first last : BlockSkipEntry} (at_i : bottom[i]? = some first) (at_j : bottom[j]? = some last)
    (below : last.maxDocId < target) : first.maxDocId < target := by
  obtain ⟨inside_i, rfl⟩ := List.getElem?_eq_some_iff.mp at_i
  obtain ⟨inside_j, rfl⟩ := List.getElem?_eq_some_iff.mp at_j
  rcases Nat.eq_or_lt_of_le ordered with rfl | earlier
  · exact below
  · exact (List.pairwise_iff_getElem.mp ascending i j inside_i inside_j earlier).trans below

/-- The cursor lands on the first block from its position on that reaches the target. -/
theorem BlockSkipCursor.advanceTo_spec (cursor : BlockSkipCursor) (target : Nat)
    (wellFormed : cursor.skipList.WellFormed)
    (inside : cursor.position ≤ cursor.skipList.bottom.length) :
    ∃ q, cursor.position ≤ q ∧ q ≤ cursor.skipList.bottom.length ∧
      (∀ i, cursor.position ≤ i → i < q → ∀ entry,
        cursor.skipList.bottom[i]? = some entry → entry.maxDocId < target) ∧
      (cursor.advanceTo target).2.position = q ∧
      (cursor.advanceTo target).2.skipList = cursor.skipList ∧
      (cursor.advanceTo target).1 = cursor.skipList.bottom[q]? ∧
      ∀ entry, cursor.skipList.bottom[q]? = some entry → target ≤ entry.maxDocId := by
  obtain ⟨⟨bottom, top⟩, position, visited⟩ := cursor
  obtain ⟨ascending, layered⟩ := wellFormed
  simp only at ascending layered inside ⊢
  unfold BlockSkipCursor.advanceTo
  simp only
  split
  · rename_i exhausted
    have last : position = bottom.length := by omega
    subst last
    exact ⟨bottom.length, le_rfl, le_rfl, fun i low high => by omega, rfl, rfl, by simp, by simp⟩
  · rename_i unfinished
    obtain ⟨start, hstart⟩ : ∃ start, start = if top = [] then position
      else max position (topJump top target (position / skipInterval) * skipInterval) := ⟨_, rfl⟩
    have jumped : position ≤ start ∧ start < bottom.length ∧ ∀ i, position ≤ i → i < start →
        ∀ entry, bottom[i]? = some entry → entry.maxDocId < target := by
      by_cases flat : top = []
      · rw [if_pos flat] at hstart
        exact ⟨by omega, by omega, fun i low high => by omega⟩
      · rw [if_neg flat] at hstart
        have layer := layered.resolve_left flat
        cases topJump_spec top target (position / skipInterval) with
        | inl stays =>
          rw [stays] at hstart
          simp only [skipInterval] at hstart
          exact ⟨by omega, by omega, fun i low high => by omega⟩
        | inr moved =>
          obtain ⟨entry, at_top, below⟩ := moved
          obtain ⟨k, hk⟩ : ∃ k, k = topJump top target (position / skipInterval) := ⟨_, rfl⟩
          rw [← hk] at at_top hstart
          rw [layer, topLayer_getElem?] at at_top
          have landed := (List.getElem?_eq_some_iff.mp at_top).1
          rw [Nat.mul_comm] at hstart
          refine ⟨by omega, by omega, fun i low high other at_i => ?_⟩
          exact maxDocId_lt_of_le ascending (by omega) at_i at_top below
    rw [← hstart]
    obtain ⟨q₁, after₁, bounded₁, passed₁, final₁, outcome₁⟩ := bottomScan_spec bottom target
      (min bottom.length (start + skipInterval * 2)) start visited (by omega) (by omega)
    obtain ⟨result₁, position₁, visited₁, scan₁⟩ : ∃ r p v, bottomScan bottom target
      (min bottom.length (start + skipInterval * 2)) start visited = (r, p, v) := ⟨_, _, _, rfl⟩
    rw [scan₁] at final₁ outcome₁
    simp only at final₁ outcome₁
    subst final₁
    have skipped : ∀ i, position ≤ i → i < position₁ → ∀ entry, bottom[i]? = some entry →
        entry.maxDocId < target := by
      intro i low high
      by_cases early : i < start
      · exact jumped.2.2 i low early
      · exact passed₁ i (by omega) high
    rcases outcome₁ with ⟨_, rfl⟩ | ⟨entry, at_q, reached, rfl⟩
    · obtain ⟨q₂, after₂, bounded₂, passed₂, final₂, outcome₂⟩ := bottomScan_spec bottom target
        bottom.length position₁ visited₁ le_rfl (by omega)
      rw [scan₁]
      refine ⟨q₂, by omega, bounded₂, ?_, final₂, rfl, ?_, ?_⟩
      · intro i low high
        by_cases early : i < position₁
        · exact skipped i low early
        · exact passed₂ i (by omega) high
      · rcases outcome₂ with ⟨rfl, nothing⟩ | ⟨entry, at_q, _, found⟩
        · simp only [nothing, List.getElem?_length]
        · simp only [found, at_q]
      · intro entry at_entry
        rcases outcome₂ with ⟨rfl, _⟩ | ⟨found, at_q, reached, _⟩
        · simp at at_entry
        · rw [at_q] at at_entry
          cases at_entry
          exact reached
    · rw [scan₁]
      refine ⟨position₁, by omega, by omega, skipped, rfl, rfl, at_q.symm, ?_⟩
      intro other at_other
      rw [at_q] at at_other
      cases at_other
      exact reached

end Surch.Codec
