import Surch.Postings.CursorAgreement

/-! `PostingsBlockSkipIter` driven through both of its interfaces, `advance_to` and
`Iterator::next`. `next` trusts the position alone, while the skip-list exit of
`advance_to` reports the end of the postings and leaves the position where it was. -/
namespace Surch.Postings
open Surch.Lib Surch.Codec

def PostingsBlockSkipIter.next (iter : PostingsBlockSkipIter) :
    Option Nat × PostingsBlockSkipIter :=
  match iter.docIds[iter.position]? with
  | some docId => (some docId, { iter with position := iter.position + 1 })
  | none => (none, iter)

inductive IterCall where
  | next
  | advanceTo (target : Nat)
deriving DecidableEq, Repr

def IterCall.target? : IterCall → Option Nat
  | .next => none
  | .advanceTo target => some target

def PostingsBlockSkipIter.call (iter : PostingsBlockSkipIter) :
    IterCall → Option Nat × PostingsBlockSkipIter
  | .next => iter.next
  | .advanceTo target => iter.advanceTo target

def callTargets (calls : List IterCall) : List Nat := calls.filterMap IterCall.target?

def ExhaustionPermanent (answers : List (Option Nat)) : Prop :=
  answers.Pairwise fun earlier later => earlier = none → later = none

def AscendingUntilExhausted (answers : List (Option Nat)) : Prop :=
  (answers.takeWhile Option.isSome).Pairwise fun earlier later =>
    ∀ x ∈ earlier, ∀ y ∈ later, x < y

/- `next` is called after an `advance_to` whose target lies above every identifier and
which was made while postings were left. -/
def IteratedPastEnd (iter : PostingsBlockSkipIter) (calls : List IterCall) : Prop :=
  ∃ before target middle after,
    calls = before ++ .advanceTo target :: (middle ++ .next :: after) ∧
      (finalState PostingsBlockSkipIter.call iter before).position < iter.docIds.length ∧
      ∀ docId ∈ iter.docIds, docId < target

variable {docIds : List Nat}

/- A state of an iterator over these postings, all targets so far being at most `last`. -/
def Advanced (docIds : List Nat) (last : Nat) (iter : PostingsBlockSkipIter) : Prop :=
  Lags docIds last iter iter.position

theorem Lags.advanced {last p : Nat} {iter : PostingsBlockSkipIter}
    (lags : Lags docIds last iter p) : Advanced docIds last iter :=
  { lags with
    bounded := lags.behind.trans lags.bounded
    behind := le_rfl
    skipped := fun _ low high => absurd high (Nat.not_lt.mpr low) }

theorem reaches_of_block {q target p : Nat} {entry : BlockSkipEntry}
    (found : (blockSkipEntries docIds)[q]? = some entry) (reached : target ≤ entry.maxDocId)
    (below : ∀ i, i < p → ∀ inside : i < docIds.length, docIds[i] < target) :
    ∃ i docId, max p (q * blockSize) ≤ i ∧ docIds[i]? = some docId ∧ target ≤ docId := by
  obtain ⟨block, -, -, last⟩ := blockSkipEntries_some found
  obtain ⟨inside, value⟩ := List.getElem?_eq_some_iff.mp last
  refine ⟨_, _, ?_, last, reached⟩
  have late : p ≤ min (forBlockSize * (q + 1)) docIds.length - 1 := by
    by_contra early
    have small := below _ (Nat.not_le.mp early) inside
    omega
  simp only [blockSize, forBlockSize] at block late ⊢
  omega

/-- The skip-list branch is only left with a posting ahead that reaches the target, so the
gallop behind it never runs into the end of the postings. -/
theorem leapfrog_reaches (ascending : docIds.Pairwise (· < ·)) {iter moved : PostingsBlockSkipIter}
    {last target : Nat} (advanced : Advanced docIds last iter)
    (unfinished : iter.position < docIds.length) (leapt : iter.leapfrog target = some moved) :
    ∃ i docId, moved.position ≤ i ∧ docIds[i]? = some docId ∧ target ≤ docId := by
  have block : forBlockSize * (iter.position / blockSize) < docIds.length := by
    simp only [blockSize, forBlockSize]
    omega
  have at_current := blockSkipEntries_getElem? docIds (iter.position / blockSize)
  simp only [if_pos block] at at_current
  unfold PostingsBlockSkipIter.leapfrog at leapt
  simp only [advanced.bottom, at_current] at leapt
  split at leapt
  · rename_i below
    -- nothing up to the end of the current block reaches the target
    have passed : ∀ i, i < iter.position + 1 → ∀ inside : i < docIds.length, docIds[i] < target := by
      intro i early
      apply lt_of_block_below ascending at_current below
      simp only [blockSize, forBlockSize]
      omega
    have searched := (BlockSkipCursor.resume iter.skipList iter.cursorPosition).advanceTo_spec target
      advanced.wellFormed (advanced.cursor.trans_eq (congrArg List.length advanced.bottom.symm))
    simp only [BlockSkipCursor.resume_skipList, BlockSkipCursor.resume_position,
      advanced.bottom] at searched
    obtain ⟨q, -, -, -, -, -, landed, reached⟩ := searched
    split at leapt
    · contradiction
    · rename_i entry cursor landing
      simp only [landing] at landed
      have index := (blockSkipEntries_some landed.symm).2.1
      obtain ⟨i, docId, ahead, at_i, large⟩ :=
        reaches_of_block landed.symm (reached entry landed.symm) passed
      refine ⟨i, docId, ?_, at_i, large⟩
      split at leapt <;> cases leapt <;> simp only [index] at ahead ⊢ <;> omega
  · rename_i reached
    cases leapt
    obtain ⟨bound, value⟩ := List.getElem?_eq_some_iff.mp (blockSkipEntries_some at_current).2.2.2
    refine ⟨_, _, ?_, (blockSkipEntries_some at_current).2.2.2, Nat.not_lt.mp reached⟩
    simp only [blockSize, forBlockSize]
    omega

theorem advanceTo_none (ascending : docIds.Pairwise (· < ·)) {iter : PostingsBlockSkipIter}
    {last target : Nat} (advanced : Advanced docIds last iter) (ordered : last ≤ target)
    (ended : (iter.advanceTo target).1 = none) : (iter.advanceTo target).2 = iter := by
  unfold PostingsBlockSkipIter.advanceTo at ended ⊢
  simp only [advanced.docs] at ended ⊢
  split at ended
  · rename_i exhausted
    simp only [if_pos exhausted]
  · rename_i unfinished
    simp only [if_neg unfinished]
    cases leapt : iter.leapfrog target with
    | none => rfl
    | some moved =>
      obtain ⟨i, docId, ahead, at_i, large⟩ :=
        leapfrog_reaches ascending advanced (Nat.not_le.mp unfinished) leapt
      obtain ⟨nothing, -⟩ | ⟨other, leapt', -, -, -, docs, -⟩ :=
        leapfrog_spec ascending advanced ordered (Nat.not_le.mp unfinished)
      · simp [nothing] at leapt
      · cases leapt.symm.trans leapt'
        have galloped := gallopOffset_drop docIds target moved.position ascending
        simp only [leapt, PostingsBlockSkipIter.scan, docs, List.getElem?_drop, galloped] at ended
        split at ended
        · rename_i missing
          obtain ⟨inside, value⟩ := List.getElem?_eq_some_iff.mp at_i
          have small := lt_of_lt_firstFrom docIds target ahead
            (inside.trans_le (List.getElem?_eq_none_iff.mp missing)) inside
          omega
        · contradiction

theorem next_spec {iter : PostingsBlockSkipIter} {last : Nat}
    (advanced : Advanced docIds last iter) :
    iter.next.1 = docIds[iter.position]? ∧ Advanced docIds last iter.next.2 ∧
      (iter.next.1 = none → iter.next.2 = iter) ∧
      (iter.next.1 ≠ none → iter.next.2.position = iter.position + 1) := by
  simp only [PostingsBlockSkipIter.next, advanced.docs]
  cases found : docIds[iter.position]? with
  | none => simpa using advanced
  | some docId =>
    have inside := (List.getElem?_eq_some_iff.mp found).1
    refine ⟨rfl, ⟨rfl, advanced.wellFormed, advanced.bottom, inside, le_rfl,
      fun _ low high => absurd high (Nat.not_lt.mpr low), advanced.cursor, advanced.passed⟩, ?_⟩
    simp

/-- One call of either kind: what it answers is a posting at or after the position, right
before the new position; a None leaves the iterator as it was. -/
theorem call_spec (ascending : docIds.Pairwise (· < ·)) {iter : PostingsBlockSkipIter} {last : Nat}
    (advanced : Advanced docIds last iter) (call : IterCall)
    (ordered : ∀ target ∈ call.target?, last ≤ target) :
    Advanced docIds (call.target?.getD last) (iter.call call).2 ∧
      ((iter.call call).1 = none → (iter.call call).2 = iter) ∧
      ∀ docId, (iter.call call).1 = some docId →
        iter.position < (iter.call call).2.position ∧
          docIds[(iter.call call).2.position - 1]? = some docId := by
  cases call with
  | next =>
    obtain ⟨answer, advanced', stays, moves⟩ := next_spec advanced
    refine ⟨advanced', stays, fun docId found => ?_⟩
    simp only [PostingsBlockSkipIter.call] at found ⊢
    have position := moves (by simp [found])
    simp only [position, Nat.add_sub_cancel]
    exact ⟨by omega, answer.symm.trans found⟩
  | advanceTo target =>
    have ordered' : last ≤ target := ordered target rfl
    obtain ⟨q, first, answer, moves, lags⟩ := advanceTo_spec ascending advanced ordered'
    refine ⟨lags.advanced, advanceTo_none ascending advanced ordered', fun docId found => ?_⟩
    simp only [PostingsBlockSkipIter.call] at found ⊢
    have at_q := answer.symm.trans found
    have position := moves (List.getElem?_eq_some_iff.mp at_q).1
    have ahead := le_firstFrom docIds target iter.position
    simp only [position, Nat.add_sub_cancel]
    exact ⟨by omega, at_q⟩

@[simp] theorem callTargets_nil : callTargets [] = [] := rfl

@[simp] theorem callTargets_next (calls : List IterCall) :
    callTargets (.next :: calls) = callTargets calls := rfl

@[simp] theorem callTargets_advanceTo (target : Nat) (calls : List IterCall) :
    callTargets (.advanceTo target :: calls) = target :: callTargets calls := rfl

@[simp] theorem callTargets_append (before after : List IterCall) :
    callTargets (before ++ after) = callTargets before ++ callTargets after :=
  List.filterMap_append

theorem callTargets_step {last : Nat} {call : IterCall} {calls : List IterCall}
    (ordered : (last :: callTargets (call :: calls)).Pairwise (· ≤ ·)) :
    (∀ target ∈ call.target?, last ≤ target) ∧
      (call.target?.getD last :: callTargets calls).Pairwise (· ≤ ·) := by
  cases call with
  | next => exact ⟨by simp [IterCall.target?], ordered⟩
  | advanceTo target =>
    obtain ⟨first, rest⟩ := List.pairwise_cons.mp ordered
    exact ⟨by simpa [IterCall.target?] using first target (by simp), rest⟩

theorem trace_ascending (ascending : docIds.Pairwise (· < ·)) {iter : PostingsBlockSkipIter}
    {last : Nat} (advanced : Advanced docIds last iter) {calls : List IterCall}
    (ordered : (last :: callTargets calls).Pairwise (· ≤ ·)) :
    (∀ docId, some docId ∈ trace PostingsBlockSkipIter.call iter calls →
        ∃ i, iter.position ≤ i ∧ docIds[i]? = some docId) ∧
      (trace PostingsBlockSkipIter.call iter calls).Pairwise fun earlier later =>
        ∀ x ∈ earlier, ∀ y ∈ later, x < y := by
  induction calls generalizing iter last with
  | nil => simp [trace]
  | cons call calls ih =>
    obtain ⟨here, rest⟩ := callTargets_step ordered
    obtain ⟨advanced', stays, moves⟩ := call_spec ascending advanced call here
    obtain ⟨after, increasing⟩ := ih advanced' rest
    have forward : iter.position ≤ (iter.call call).2.position := by
      cases answer : (iter.call call).1 with
      | none => simp [stays answer]
      | some docId => exact (moves docId answer).1.le
    constructor
    · intro docId member
      rcases List.mem_cons.mp member with now | later
      · obtain ⟨ahead, at_docId⟩ := moves docId now.symm
        exact ⟨_, by omega, at_docId⟩
      · obtain ⟨i, ahead, at_i⟩ := after docId later
        exact ⟨i, by omega, at_i⟩
    · refine List.pairwise_cons.mpr ⟨?_, increasing⟩
      intro later member x now y found
      cases found
      obtain ⟨ahead, at_x⟩ := moves x now
      obtain ⟨i, after_x, at_y⟩ := after y member
      exact lt_of_getElem? ascending at_x at_y (by omega)

theorem trace_exhausted (ascending : docIds.Pairwise (· < ·)) {iter : PostingsBlockSkipIter}
    {last : Nat} (advanced : Advanced docIds last iter) (exhausted : docIds.length ≤ iter.position)
    {calls : List IterCall} (ordered : (last :: callTargets calls).Pairwise (· ≤ ·)) :
    ∀ answer ∈ trace PostingsBlockSkipIter.call iter calls, answer = none := by
  intro answer member
  by_contra present
  obtain ⟨docId, rfl⟩ := Option.ne_none_iff_exists'.mp present
  obtain ⟨i, ahead, at_i⟩ := (trace_ascending ascending advanced ordered).1 docId member
  have inside := (List.getElem?_eq_some_iff.mp at_i).1
  omega

theorem advanceTo_above (ascending : docIds.Pairwise (· < ·)) {iter : PostingsBlockSkipIter}
    {last target : Nat} (advanced : Advanced docIds last iter) (ordered : last ≤ target)
    (above : ∀ docId ∈ docIds, docId < target) : (iter.advanceTo target).1 = none := by
  obtain ⟨q, first, answer, -, -⟩ := advanceTo_spec ascending advanced ordered
  cases found : docIds[q]? with
  | none => exact answer.trans found
  | some docId =>
    obtain ⟨inside, value⟩ := List.getElem?_eq_some_iff.mp found
    have large := firstFrom_le_getElem docIds target (first ▸ inside)
    have small := above _ (List.getElem_mem (first ▸ inside))
    omega

/-- An `advance_to` that reports the end with postings left had a target above them all. -/
theorem above_of_advanceTo_none (ascending : docIds.Pairwise (· < ·))
    {iter : PostingsBlockSkipIter} {last target : Nat} (advanced : Advanced docIds last iter)
    (ordered : last ≤ target) (unfinished : iter.position < docIds.length)
    (ended : (iter.advanceTo target).1 = none) : ∀ docId ∈ docIds, docId < target := by
  obtain ⟨q, first, answer, -, -⟩ := advanceTo_spec ascending advanced ordered
  have all := List.getElem?_eq_none_iff.mp (answer.symm.trans ended)
  intro docId member
  obtain ⟨i, inside, rfl⟩ := List.getElem_of_mem member
  have nonempty : docIds.length - 1 < docIds.length := by omega
  have final : docIds[docIds.length - 1] < target :=
    lt_of_lt_firstFrom docIds target (Nat.le_sub_one_of_lt unfinished) (by omega) nonempty
  exact lt_of_le_of_lt_getElem ascending (by omega) nonempty final

/-- Only `advance_to` calls above every identifier: all are answered None, from one state. -/
theorem trace_above (ascending : docIds.Pairwise (· < ·)) {iter : PostingsBlockSkipIter}
    {last : Nat} (advanced : Advanced docIds last iter) (above : ∀ docId ∈ docIds, docId < last)
    {calls : List IterCall} (ordered : (last :: callTargets calls).Pairwise (· ≤ ·))
    (advances : .next ∉ calls) :
    ∀ answer ∈ trace PostingsBlockSkipIter.call iter calls, answer = none := by
  induction calls generalizing iter last with
  | nil => simp [trace]
  | cons call calls ih =>
    obtain ⟨here, rest⟩ := callTargets_step ordered
    cases call with
    | next => simp at advances
    | advanceTo target =>
      have ordered' : last ≤ target := here target rfl
      have above' : ∀ docId ∈ docIds, docId < target :=
        fun docId member => (above docId member).trans_le ordered'
      obtain ⟨advanced', -, -⟩ := call_spec ascending advanced (.advanceTo target) here
      have later := ih advanced' above' rest (by simpa using advances)
      intro answer member
      rcases List.mem_cons.mp member with rfl | member
      · exact advanceTo_above ascending advanced ordered' above'
      · exact later answer member

/-- With postings left, a `next` hands one out whatever `advance_to` has reported before. -/
theorem trace_resumes (ascending : docIds.Pairwise (· < ·)) {iter : PostingsBlockSkipIter}
    {last : Nat} (advanced : Advanced docIds last iter) (above : ∀ docId ∈ docIds, docId < last)
    (unfinished : iter.position < docIds.length) {calls : List IterCall}
    (ordered : (last :: callTargets calls).Pairwise (· ≤ ·)) (iterated : .next ∈ calls) :
    ∃ docId, some docId ∈ trace PostingsBlockSkipIter.call iter calls := by
  induction calls generalizing iter last with
  | nil => simp at iterated
  | cons call calls ih =>
    obtain ⟨here, rest⟩ := callTargets_step ordered
    cases call with
    | next =>
      have answer := (next_spec advanced).1
      rw [List.getElem?_eq_getElem unfinished] at answer
      exact ⟨_, List.mem_cons.mpr (.inl answer.symm)⟩
    | advanceTo target =>
      have ordered' : last ≤ target := here target rfl
      have above' : ∀ docId ∈ docIds, docId < target :=
        fun docId member => (above docId member).trans_le ordered'
      obtain ⟨advanced', stays, -⟩ := call_spec ascending advanced (.advanceTo target) here
      have still := stays (advanceTo_above ascending advanced ordered' above')
      obtain ⟨docId, later⟩ := ih advanced' above' (by simpa only [still] using unfinished) rest
        (by simpa using iterated)
      exact ⟨docId, List.mem_cons_of_mem _ later⟩

theorem finalState_advanced (ascending : docIds.Pairwise (· < ·)) {iter : PostingsBlockSkipIter}
    {last : Nat} (advanced : Advanced docIds last iter) {before after : List IterCall}
    (ordered : (last :: callTargets (before ++ after)).Pairwise (· ≤ ·)) :
    ∃ reached, Advanced docIds reached (finalState PostingsBlockSkipIter.call iter before) ∧
      (reached :: callTargets after).Pairwise (· ≤ ·) := by
  induction before generalizing iter last with
  | nil => exact ⟨last, advanced, ordered⟩
  | cons call before ih =>
    obtain ⟨here, rest⟩ := callTargets_step ordered
    exact ih (call_spec ascending advanced call here).1 rest

theorem permanent_of_not_iteratedPastEnd (ascending : docIds.Pairwise (· < ·))
    {iter : PostingsBlockSkipIter} {last : Nat} (advanced : Advanced docIds last iter)
    {calls : List IterCall} (ordered : (last :: callTargets calls).Pairwise (· ≤ ·))
    (proper : ¬ IteratedPastEnd iter calls) :
    ExhaustionPermanent (trace PostingsBlockSkipIter.call iter calls) := by
  induction calls generalizing iter last with
  | nil => exact List.Pairwise.nil
  | cons call calls ih =>
    obtain ⟨here, rest⟩ := callTargets_step ordered
    obtain ⟨advanced', stays, -⟩ := call_spec ascending advanced call here
    have proper' : ¬ IteratedPastEnd (iter.call call).2 calls := by
      rintro ⟨before, target, middle, after, rfl, unfinished, above⟩
      rw [advanced'.docs, ← advanced.docs] at unfinished above
      exact proper ⟨call :: before, target, middle, after, rfl, unfinished, above⟩
    refine List.pairwise_cons.mpr ⟨fun later member ended => ?_, ih advanced' rest proper'⟩
    have still := stays ended
    by_cases unfinished : iter.position < docIds.length
    · cases call with
      | next =>
        have answer := (next_spec advanced).1
        rw [List.getElem?_eq_getElem unfinished] at answer
        simp [PostingsBlockSkipIter.call, answer] at ended
      | advanceTo target =>
        have above := above_of_advanceTo_none ascending advanced (here target rfl) unfinished ended
        have advances : .next ∉ calls := by
          intro iterated
          obtain ⟨middle, after, split⟩ := List.append_of_mem iterated
          exact proper ⟨[], target, middle, after, by rw [split]; rfl,
            by rwa [advanced.docs], by rwa [advanced.docs]⟩
        exact trace_above ascending advanced' above rest advances later member
    · exact trace_exhausted ascending advanced' (by rw [still]; omega) rest later member

theorem skipIter_advanced {iter : PostingsBlockSkipIter} (ascending : docIds.Pairwise (· < ·))
    (built : skipIter docIds = .ok (some iter)) : Advanced docIds 0 iter ∧ iter.position = 0 := by
  have nonempty : docIds ≠ [] := by
    rintro rfl
    cases built
  obtain ⟨skipList, built', wellFormed, bottom⟩ := skipIter_ok ascending nonempty
  cases built.symm.trans built'
  exact ⟨⟨rfl, wellFormed, bottom, Nat.zero_le _, le_rfl,
    fun _ _ high => absurd high (Nat.not_lt_zero _), Nat.zero_le _,
    fun _ early => absurd early (Nat.not_lt_zero _)⟩, rfl⟩

/-- Exhaustion of a `PostingsBlockSkipIter` is permanent exactly when `next` is never called
after an `advance_to` past the last posting that was made with postings left; the identifiers
answered before ascend in every run. -/
theorem skipIter_exhaustion {iter : PostingsBlockSkipIter} (ascending : docIds.Pairwise (· < ·))
    (built : skipIter docIds = .ok (some iter)) (calls : List IterCall)
    (ordered : (callTargets calls).Pairwise (· ≤ ·)) :
    ExhaustionPermanent (trace PostingsBlockSkipIter.call iter calls) ∧
        AscendingUntilExhausted (trace PostingsBlockSkipIter.call iter calls) ↔
      ¬ IteratedPastEnd iter calls := by
  have advanced := (skipIter_advanced ascending built).1
  have ordered' : (0 :: callTargets calls).Pairwise (· ≤ ·) :=
    List.pairwise_cons.mpr ⟨fun target _ => Nat.zero_le target, ordered⟩
  have increasing := (trace_ascending ascending advanced ordered').2
  constructor
  · rintro ⟨permanent, -⟩ ⟨before, target, middle, after, rfl, unfinished, above⟩
    rw [advanced.docs] at unfinished above
    obtain ⟨reached, advanced', rest⟩ := finalState_advanced ascending advanced ordered'
    obtain ⟨here, rest'⟩ := callTargets_step rest
    obtain ⟨later, stays, -⟩ := call_spec ascending advanced' (.advanceTo target) here
    have ended := advanceTo_above ascending advanced' (here target rfl) above
    have still := stays ended
    obtain ⟨docId, resumed⟩ := trace_resumes ascending later above
      (by rw [still]; exact unfinished) rest' (by simp)
    rw [trace_append] at permanent
    have forever := (List.pairwise_cons.mp (List.pairwise_append.mp permanent).2.1).1
    cases forever _ resumed ended
  · intro proper
    exact ⟨permanent_of_not_iteratedPastEnd ascending advanced ordered' proper,
      increasing.sublist (List.takeWhile_sublist _)⟩

/- A posting is handed out after the end was reported. -/
theorem exhaustion_not_permanent :
    ¬ ∀ (docIds : List Nat) (iter : PostingsBlockSkipIter) (calls : List IterCall),
      docIds.Pairwise (· < ·) → skipIter docIds = .ok (some iter) →
        (callTargets calls).Pairwise (· ≤ ·) →
          ExhaustionPermanent (trace PostingsBlockSkipIter.call iter calls) ∧
            AscendingUntilExhausted (trace PostingsBlockSkipIter.call iter calls) := by
  intro always
  have ascending : [5].Pairwise (· < ·) := List.pairwise_singleton (· < ·) 5
  obtain ⟨skipList, built, -⟩ := skipIter_ok ascending (List.cons_ne_nil 5 [])
  have advanced := (skipIter_advanced ascending built).1
  have ended : (PostingsBlockSkipIter.advanceTo _ 9).1 = none :=
    advanceTo_above ascending advanced (Nat.zero_le 9) (by simp)
  have still := advanceTo_none ascending advanced (Nat.zero_le 9) ended
  have permanent := (always [5] _ [.advanceTo 9, .next] ascending built (by simp)).1
  simp [trace, PostingsBlockSkipIter.call, ended, still, PostingsBlockSkipIter.next,
    ExhaustionPermanent] at permanent

def endedCalls : List IterCall := [.advanceTo 127, .next, .next, .next, .advanceTo 500, .next]

def leaptCalls : List IterCall := [.next, .advanceTo 500, .next]

/-- Two blocks of postings: iterated to their end, the iterator stays there; sent past their end, it
does not. -/
theorem skipIter_exhaustion_two_blocks :
    ∃ iter, skipIter (List.range 130) = .ok (some iter) ∧
      trace PostingsBlockSkipIter.call iter endedCalls =
        [some 127, some 128, some 129, none, none, none] ∧
      ¬ IteratedPastEnd iter endedCalls ∧
      trace PostingsBlockSkipIter.call iter leaptCalls = [some 0, none, some 1] ∧
      IteratedPastEnd iter leaptCalls := by
  have ascending : (List.range 130).Pairwise (· < ·) := List.pairwise_lt_range
  obtain ⟨skipList, built, -⟩ := skipIter_ok ascending (by simp)
  have traces : ((skipIter (List.range 130)).toOption.join.map fun iter =>
      (trace PostingsBlockSkipIter.call iter endedCalls,
        trace PostingsBlockSkipIter.call iter leaptCalls)) =
      some ([some 127, some 128, some 129, none, none, none], [some 0, none, some 1]) := by
    decide +kernel
  rw [built] at traces
  obtain ⟨ended, leapt⟩ := Prod.mk.inj (Option.some.inj traces)
  have first := skipIter_exhaustion ascending built endedCalls (by simp [endedCalls])
  have second := skipIter_exhaustion ascending built leaptCalls (by simp [leaptCalls])
  refine ⟨_, built, ended, first.mp ?_, leapt, not_not.mp (mt second.mpr ?_)⟩
  · rw [ended]
    simp [ExhaustionPermanent, AscendingUntilExhausted]
  · rw [leapt]
    simp [ExhaustionPermanent]

end Surch.Postings
