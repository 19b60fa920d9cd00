import Mathlib.Algebra.Order.BigOperators.Group.List
import Mathlib.Logic.Relation
import Mathlib.Order.WellFounded
import Surch.Index.Steps

/-! Which run `find_eligible_merge_run` picks, and where the merging it drives ends. Both
bounds of a run get harder to meet as the run grows, so extending each start greedily finds
its longest run. -/
namespace Surch.Index
open Surch.Lib Surch.Codec Surch.Postings

/- Sizes that may be merged: the largest is at most ten times the smallest, and their total is
within the cap. -/
structure Mergeable (maxDocs : Option Nat) (run : List Nat) : Prop where
  comparable : ∀ x ∈ run, ∀ y ∈ run, x ≤ sizeRatio * y
  capped : ∀ cap ∈ maxDocs, run.sum ≤ cap

structure EligibleRun (fanin : Nat) (maxDocs : Option Nat) (sizes : List Nat)
    (start ending : Nat) : Prop where
  long : start + fanin ≤ ending
  inside : ending ≤ sizes.length
  mergeable : Mergeable maxDocs ((sizes.drop start).take (ending - start))

/- Sizes are `u32` counts, and their total does not reach the largest `u64` number where the cap
is that number. -/
structure Counted (maxDocs : Option Nat) (sizes : List Nat) : Prop where
  each : ∀ size ∈ sizes, size < 2 ^ 32
  total : ∀ cap ∈ maxDocs, 2 ^ 64 - 1 ≤ cap → sizes.sum < 2 ^ 64

structure Tallied (run : List Nat) (runMin runMax runSum : Nat) : Prop where
  min_mem : runMin ∈ run
  min_le : ∀ x ∈ run, runMin ≤ x
  max_mem : runMax ∈ run
  le_max : ∀ x ∈ run, x ≤ runMax
  sum : runSum = min run.sum (2 ^ 64 - 1)

variable {maxDocs : Option Nat} {run sizes : List Nat} {runMin runMax runSum : Nat}

theorem Counted.sublist {longer : List Nat} (counted : Counted maxDocs longer)
    (part : run.Sublist longer) : Counted maxDocs run := by
  refine ⟨fun size member => counted.each size (part.subset member), fun cap set large => ?_⟩
  exact (part.sum_le_sum fun _ _ => Nat.zero_le _).trans_lt (counted.total cap set large)

theorem Mergeable.sublist {longer : List Nat} (mergeable : Mergeable maxDocs longer)
    (part : run.Sublist longer) : Mergeable maxDocs run := by
  refine ⟨fun x member y member' =>
    mergeable.comparable x (part.subset member) y (part.subset member'), fun cap set => ?_⟩
  exact (part.sum_le_sum fun _ _ => Nat.zero_le _).trans (mergeable.capped cap set)

theorem tallied_singleton (size : Nat) (fits : size < 2 ^ 32) :
    Tallied [size] size size size := by
  refine ⟨by simp, by simp, by simp, by simp, ?_⟩
  simp only [List.sum_cons, List.sum_nil]
  omega

theorem Tallied.append (tallied : Tallied run runMin runMax runSum) (size : Nat) :
    Tallied (run ++ [size]) (min runMin size) (max runMax size) (saturatingAddU64 runSum size) := by
  refine ⟨?_, ?_, ?_, ?_, ?_⟩
  · rcases min_choice runMin size with same | same <;> simp [same, tallied.min_mem]
  · intro x member
    rcases List.mem_append.mp member with earlier | last
    · exact (Nat.min_le_left _ _).trans (tallied.min_le x earlier)
    · simp_all
  · rcases max_choice runMax size with same | same <;> simp [same, tallied.max_mem]
  · intro x member
    rcases List.mem_append.mp member with earlier | last
    · exact (tallied.le_max x earlier).trans (Nat.le_max_left _ _)
    · simp_all
  · simp only [saturatingAddU64, tallied.sum, List.sum_append, List.sum_singleton]
    omega

theorem Tallied.mergeable_iff (tallied : Tallied run runMin runMax runSum)
    (counted : Counted maxDocs run) :
    Mergeable maxDocs run ↔
      ¬ runMax > min (runMin * sizeRatio) (2 ^ 64 - 1) ∧ ¬ maxDocs.any (runSum > ·) := by
  have small := counted.each runMax tallied.max_mem
  constructor
  · intro mergeable
    have ratio := mergeable.comparable runMax tallied.max_mem runMin tallied.min_mem
    refine ⟨by simp only [Nat.mul_comm] at ratio ⊢; omega, ?_⟩
    simp only [Option.any_eq_true, not_exists, not_and, decide_eq_true_eq]
    intro cap set
    have bound := mergeable.capped cap set
    have sum := tallied.sum
    omega
  · rintro ⟨ratio, cap_ok⟩
    constructor
    · intro x member y member'
      have high := tallied.le_max x member
      have low := Nat.mul_le_mul_left sizeRatio (tallied.min_le y member')
      simp only [Nat.mul_comm runMin] at ratio
      omega
    · intro cap set
      have bound : ¬ runSum > cap := by
        intro above
        exact cap_ok (by simp [Option.mem_def.mp set, above])
      have total := counted.total cap set
      have sum := tallied.sum
      omega

/-- Extending a run greedily goes exactly as far as the longer runs are mergeable. -/
theorem le_extendRun_iff (tallied : Tallied run runMin runMax runSum)
    (counted : Counted maxDocs (run ++ sizes)) {count : Nat} (positive : 0 < count)
    (inside : count ≤ sizes.length) :
    count ≤ extendRun maxDocs runMin runMax runSum sizes ↔
      Mergeable maxDocs (run ++ sizes.take count) := by
  induction sizes generalizing run runMin runMax runSum count with
  | nil => simp at inside; omega
  | cons size rest ih =>
    have next := tallied.append size
    have counted' : Counted maxDocs ((run ++ [size]) ++ rest) := by simpa using counted
    have here := next.mergeable_iff (counted'.sublist (List.sublist_append_left _ _))
    obtain ⟨more, rfl⟩ : ∃ more, count = more + 1 := ⟨count - 1, by omega⟩
    have split_run : run ++ (size :: rest).take (more + 1) = (run ++ [size]) ++ rest.take more := by
      simp
    rw [split_run]
    by_cases joins : Mergeable maxDocs (run ++ [size])
    · obtain ⟨ratio, cap_ok⟩ := here.mp joins
      simp only [extendRun, if_neg ratio, if_neg cap_ok]
      by_cases last : more = 0
      · subst last
        simpa using joins
      · have further := ih next counted' (Nat.pos_of_ne_zero last) (by simpa using inside)
        rw [← further]
        omega
    · have stops : extendRun maxDocs runMin runMax runSum (size :: rest) = 0 := by
        simp only [extendRun]
        split
        · rfl
        split
        · rfl
        · rename_i ratio cap_ok
          exact absurd (here.mpr ⟨ratio, cap_ok⟩) joins
      constructor
      · omega
      · intro mergeable
        exact absurd (mergeable.sublist (List.sublist_append_left _ _)) joins

section Selection

variable {fanin start ending : Nat}

theorem runLength_le (maxDocs : Option Nat) (inside : start < sizes.length) :
    start + runLength maxDocs sizes start ≤ sizes.length := by
  have bound := extendRun_le maxDocs (sizes.getD start 0) (sizes.getD start 0) (sizes.getD start 0)
    (sizes.drop (start + 1))
  simp only [List.length_drop] at bound
  simp only [runLength]
  omega

theorem eligibleRun_iff (counted : Counted maxDocs sizes) (proper : 2 ≤ fanin) :
    EligibleRun fanin maxDocs sizes start ending ↔
      start + fanin ≤ ending ∧ start < sizes.length ∧
        ending ≤ start + runLength maxDocs sizes start := by
  by_cases inside : start < sizes.length
  · have suffix : sizes.drop start = [sizes[start]] ++ sizes.drop (start + 1) :=
      List.drop_eq_getElem_cons inside
    have first : sizes.getD start 0 = sizes[start] := by simp [inside]
    have counted' : Counted maxDocs ([sizes[start]] ++ sizes.drop (start + 1)) :=
      suffix ▸ counted.sublist (List.drop_sublist start sizes)
    have tallied := tallied_singleton sizes[start] (counted.each _ (List.getElem_mem inside))
    have reach := runLength_le maxDocs inside
    have extends_iff : start + fanin ≤ ending → ending ≤ sizes.length →
        (ending ≤ start + runLength maxDocs sizes start ↔
          Mergeable maxDocs ((sizes.drop start).take (ending - start))) := by
      intro long bounded
      obtain ⟨count, rfl⟩ : ∃ count, ending = start + (count + 1) := ⟨ending - start - 1, by omega⟩
      have more : 0 < count := by omega
      have room : count ≤ (sizes.drop (start + 1)).length := by
        simp only [List.length_drop]
        omega
      have greedy := le_extendRun_iff tallied counted' more room
      have taken : (sizes.drop start).take (start + (count + 1) - start) =
          [sizes[start]] ++ (sizes.drop (start + 1)).take count := by
        rw [suffix, Nat.add_sub_cancel_left]
        rfl
      rw [taken, ← greedy, runLength, first]
      omega
    constructor
    · rintro ⟨long, bounded, mergeable⟩
      exact ⟨long, inside, (extends_iff long bounded).mpr mergeable⟩
    · rintro ⟨long, -, within⟩
      have bounded : ending ≤ sizes.length := within.trans reach
      exact ⟨long, bounded, (extends_iff long bounded).mp within⟩
  · constructor
    · rintro ⟨long, bounded, -⟩
      omega
    · rintro ⟨-, present, -⟩
      exact absurd present inside

structure BestBefore (fanin : Nat) (maxDocs : Option Nat) (sizes : List Nat) (limit : Nat)
    (best : Option (Nat × Nat)) : Prop where
  missing : best = none → ∀ start < limit, runLength maxDocs sizes start < fanin
  kept : ∀ start ending, best = some (start, ending) →
    start < limit ∧ ending = start + runLength maxDocs sizes start ∧
      fanin ≤ runLength maxDocs sizes start ∧
      (∀ other < limit, runLength maxDocs sizes other ≤ runLength maxDocs sizes start) ∧
      ∀ other < start, runLength maxDocs sizes other < runLength maxDocs sizes start

theorem selectRun_best (fanin : Nat) (maxDocs : Option Nat) (sizes : List Nat) :
    BestBefore fanin maxDocs sizes sizes.length (selectRun fanin maxDocs sizes) := by
  unfold selectRun
  induction sizes.length with
  | zero => exact ⟨by simp, by simp⟩
  | succ limit ih =>
    rw [List.range_succ, List.foldl_append]
    generalize (List.range limit).foldl _ none = best at ih
    obtain ⟨missing, kept⟩ := ih
    simp only [List.foldl_cons, List.foldl_nil]
    split
    · rename_i longer
      obtain ⟨long, beats⟩ := longer
      refine ⟨by simp, fun start ending chosen => ?_⟩
      cases chosen
      have earlier : ∀ other < limit,
          runLength maxDocs sizes other < runLength maxDocs sizes limit := by
        intro other before
        cases best with
        | none => exact (missing rfl other before).trans_le long
        | some pair =>
          obtain ⟨start, ending⟩ := pair
          obtain ⟨-, rfl, -, longest, -⟩ := kept start ending rfl
          have bound := longest other before
          simp at beats
          omega
      refine ⟨Nat.lt_succ_self limit, rfl, long, fun other before => ?_, earlier⟩
      rcases Nat.lt_succ_iff_lt_or_eq.mp before with strictly | rfl
      · exact (earlier other strictly).le
      · exact le_rfl
    · rename_i shorter
      constructor
      · intro nothing other before
        subst nothing
        rcases Nat.lt_succ_iff_lt_or_eq.mp before with strictly | rfl
        · exact missing rfl other strictly
        · simpa using shorter
      · intro start ending chosen
        obtain ⟨before, reach, long, longest, leftmost⟩ := kept start ending chosen
        refine ⟨before.trans (Nat.lt_succ_self limit), reach, long, fun other within => ?_, leftmost⟩
        rcases Nat.lt_succ_iff_lt_or_eq.mp within with strictly | rfl
        · exact longest other strictly
        · subst chosen reach
          simp at shorter
          omega

end Selection

namespace DocumentIndex

variable {Digest : Type} {settings : Settings Digest} {index merged last : DocumentIndex Digest}

def sealedSizes (index : DocumentIndex Digest) : List Nat :=
  index.sealedSegments.map Segment.docCount

def MergeStep (settings : Settings Digest) (index merged : DocumentIndex Digest) : Prop :=
  ∃ start ending termsFile subfieldFile,
    index.findEligibleMergeRun settings.mergeFanin settings.mergeMaxDocs = some (start, ending) ∧
      index.mergeSegmentsRun settings start ending termsFile subfieldFile = some merged

theorem findEligibleMergeRun_eq (index : DocumentIndex Digest) (fanin : Nat)
    (maxDocs : Option Nat) :
    index.findEligibleMergeRun fanin maxDocs = selectRun fanin maxDocs index.sealedSizes := by
  unfold findEligibleMergeRun
  split
  · rename_i few
    cases chosen : selectRun fanin maxDocs index.sealedSizes with
    | none => rfl
    | some pair =>
      have spec := selectRun_spec chosen
      simp only [sealedSizes, List.length_map] at spec
      omega
  · rfl

theorem mergedSegment_docCount {run : List (Segment Digest)} {budget : Nat}
    {termsFile subfieldFile : Device} {segment : Segment Digest}
    (built : mergedSegment settings run budget termsFile subfieldFile = some segment) :
    segment.docCount = (run.map Segment.docCount).sum % 2 ^ 32 := by
  simp only [mergedSegment, Option.bind_eq_bind, Option.bind_eq_some_iff, Option.pure_def] at built
  obtain ⟨terms, -, result⟩ := built
  cases result
  rfl

theorem mergedFields_of_panic {start ending : Nat} {termsFile subfieldFile : Device}
    (panicked : index.mergeSegmentsRun settings start ending termsFile subfieldFile = none) :
    mergedFields
      (((index.sealedSegments.drop start).take (ending - start)).map Segment.terms) = none := by
  by_contra read
  obtain ⟨fields, readable⟩ := Option.ne_none_iff_exists'.mp read
  simp only [mergeSegmentsRun, mergedSegment, mergeTermDictionaries, readable, Option.pure_def,
    Option.bind_eq_bind, Option.bind_some] at panicked
  cases panicked

/-- A merge leaves the active segment alone and fewer sealed ones, of no more documents. -/
theorem MergeStep.spec (proper : 2 ≤ settings.mergeFanin) (step : MergeStep settings index merged) :
    merged.sealedSegments.length < index.sealedSegments.length ∧ merged.active = index.active ∧
      (Counted settings.mergeMaxDocs index.sealedSizes →
        Counted settings.mergeMaxDocs merged.sealedSizes) := by
  obtain ⟨start, ending, termsFile, subfieldFile, eligible, produced⟩ := step
  obtain ⟨long, inside⟩ := findEligibleMergeRun_spec eligible
  obtain ⟨before, run, after, segment, cut, built, rfl⟩ :=
    mergeSegmentsRun_spec (by omega) inside produced
  have total := congrArg List.length cut.sealed
  have run_length := congrArg List.length cut.run_eq
  simp only [List.length_take, List.length_drop] at run_length
  refine ⟨?_, rfl, fun counted => ?_⟩
  · simp only [List.length_append, List.length_singleton] at total ⊢
    omega
  · have docCount := mergedSegment_docCount built
    have wraps := Nat.mod_le (run.map Segment.docCount).sum (2 ^ 32)
    have small : segment.docCount < 2 ^ 32 := by
      rw [docCount]
      exact Nat.mod_lt _ (by decide)
    simp only [sealedSizes, cut.sealed, List.map_append] at counted
    constructor
    · intro size member
      simp only [sealedSizes, List.map_append, List.mem_append, List.map_cons, List.map_nil,
        List.mem_singleton] at member
      rcases member with (earlier | rfl) | later
      · exact counted.each size (by simp only [List.mem_append]; exact .inl (.inl earlier))
      · exact small
      · exact counted.each size (by simp only [List.mem_append]; exact .inr later)
    · intro cap set large
      have bound := counted.total cap set large
      simp only [sealedSizes, List.map_append, List.sum_append, List.map_cons, List.map_nil,
        List.sum_singleton] at bound ⊢
      omega

theorem mergeStep_wellFounded (proper : 2 ≤ settings.mergeFanin) :
    WellFounded fun merged index : DocumentIndex Digest => MergeStep settings index merged :=
  Subrelation.wf (fun step => (MergeStep.spec proper step).1)
    (InvImage.wf (fun index : DocumentIndex Digest => index.sealedSegments.length) Nat.lt_wfRel.wf)

theorem mergeLoop_reaches {files : Files} (fuel : Nat)
    (finished : index.mergeLoop settings files fuel = some last) :
    Relation.ReflTransGen (MergeStep settings) index last := by
  induction fuel generalizing index with
  | zero =>
    cases finished
    exact .refl
  | succ fuel ih =>
    rw [mergeLoop] at finished
    split at finished
    · cases finished
      exact .refl
    · rename_i start ending eligible
      obtain ⟨merged, produced, rest⟩ := Option.bind_eq_some_iff.mp finished
      exact .head ⟨start, ending, _, _, eligible, produced⟩ (ih rest)

theorem mergeLoop_panics {files : Files} (fuel : Nat)
    (panicked : index.mergeLoop settings files fuel = none) :
    ∃ stuck start ending termsFile subfieldFile,
      Relation.ReflTransGen (MergeStep settings) index stuck ∧
        stuck.findEligibleMergeRun settings.mergeFanin settings.mergeMaxDocs =
          some (start, ending) ∧
        stuck.mergeSegmentsRun settings start ending termsFile subfieldFile = none := by
  induction fuel generalizing index with
  | zero => cases panicked
  | succ fuel ih =>
    rw [mergeLoop] at panicked
    split at panicked
    · cases panicked
    · rename_i start ending eligible
      cases produced : index.mergeSegmentsRun settings start ending (files (2 * fuel + 2))
          (files (2 * fuel + 3)) with
      | none => exact ⟨index, start, ending, _, _, .refl, eligible, produced⟩
      | some merged =>
        simp only [produced, Option.bind_eq_bind, Option.bind_some] at panicked
        obtain ⟨stuck, start', ending', termsFile, subfieldFile, reached, more⟩ := ih panicked
        exact ⟨stuck, start', ending', termsFile, subfieldFile,
          .head ⟨start, ending, _, _, eligible, produced⟩ reached, more⟩

theorem mergeSteps_kept (proper : 2 ≤ settings.mergeFanin)
    (counted : Counted settings.mergeMaxDocs index.sealedSizes)
    (reached : Relation.ReflTransGen (MergeStep settings) index last) :
    last.active = index.active ∧ Counted settings.mergeMaxDocs last.sealedSizes := by
  induction reached with
  | refl => exact ⟨rfl, counted⟩
  | tail _ step ih =>
    obtain ⟨-, active, counts⟩ := step.spec proper
    exact ⟨active.trans ih.1, counts ih.2⟩

theorem findEligibleMergeRun_isSome (proper : 2 ≤ settings.mergeFanin)
    (counted : Counted settings.mergeMaxDocs index.sealedSizes) :
    (index.findEligibleMergeRun settings.mergeFanin settings.mergeMaxDocs).isSome = true ↔
      ∃ start ending,
        EligibleRun settings.mergeFanin settings.mergeMaxDocs index.sealedSizes start ending := by
  have best := selectRun_best settings.mergeFanin settings.mergeMaxDocs index.sealedSizes
  simp only [findEligibleMergeRun_eq, eligibleRun_iff counted proper]
  cases chosen : selectRun settings.mergeFanin settings.mergeMaxDocs index.sealedSizes with
  | none =>
    have short := best.missing chosen
    simp only [Option.isSome_none, Bool.false_eq_true, false_iff, not_exists, not_and]
    intro start ending long inside reach
    have bound := short start inside
    omega
  | some pair =>
    obtain ⟨start, ending⟩ := pair
    obtain ⟨inside, reach, long, -⟩ := best.kept start ending chosen
    simp only [Option.isSome_some, true_iff]
    exact ⟨start, ending, by omega, inside, reach.le⟩

theorem findEligibleMergeRun_best (proper : 2 ≤ settings.mergeFanin)
    (counted : Counted settings.mergeMaxDocs index.sealedSizes) {start ending : Nat}
    (found : index.findEligibleMergeRun settings.mergeFanin settings.mergeMaxDocs =
      some (start, ending)) :
    EligibleRun settings.mergeFanin settings.mergeMaxDocs index.sealedSizes start ending ∧
      ∀ start' ending',
        EligibleRun settings.mergeFanin settings.mergeMaxDocs index.sealedSizes start' ending' →
          ending' - start' ≤ ending - start ∧
            (ending' - start' = ending - start → start ≤ start') := by
  have best := selectRun_best settings.mergeFanin settings.mergeMaxDocs index.sealedSizes
  simp only [findEligibleMergeRun_eq] at found
  simp only [eligibleRun_iff counted proper]
  obtain ⟨inside, reach, long, longest, leftmost⟩ := best.kept start ending found
  refine ⟨⟨by omega, inside, reach.le⟩, ?_⟩
  rintro start' ending' ⟨long', inside', reach'⟩
  have bound := longest start' inside'
  refine ⟨by omega, fun equal => ?_⟩
  by_contra left
  have strictly := leftmost start' (Nat.not_le.mp left)
  omega

/-- The selection finds a run exactly when one is eligible, and then the leftmost of the longest;
merging ends, in a state without an eligible run unless the postings of a segment it merges
cannot be read, and it never touches the active segment. -/
theorem merge_selection_optimal (proper : 2 ≤ settings.mergeFanin)
    (counted : Counted settings.mergeMaxDocs index.sealedSizes) :
    let selected := index.findEligibleMergeRun settings.mergeFanin settings.mergeMaxDocs
    let Eligible := EligibleRun settings.mergeFanin settings.mergeMaxDocs
    (selected.isSome = true ↔ ∃ start ending, Eligible index.sealedSizes start ending) ∧
      (∀ start ending, selected = some (start, ending) →
        Eligible index.sealedSizes start ending ∧
          ∀ start' ending', Eligible index.sealedSizes start' ending' →
            ending' - start' ≤ ending - start ∧
              (ending' - start' = ending - start → start ≤ start')) ∧
      (¬ ∃ states : Nat → DocumentIndex Digest,
        states 0 = index ∧ ∀ n, MergeStep settings (states n) (states (n + 1))) ∧
      ∀ files,
        (∃ last, index.maybeMergeAfterSeal settings files = some last ∧
          Relation.ReflTransGen (MergeStep settings) index last ∧ last.active = index.active ∧
          ¬ ∃ start ending, Eligible last.sealedSizes start ending) ∨
        (index.maybeMergeAfterSeal settings files = none ∧
          ∃ stuck start ending, Relation.ReflTransGen (MergeStep settings) index stuck ∧
            stuck.active = index.active ∧ Eligible stuck.sealedSizes start ending ∧
            mergedFields (((stuck.sealedSegments.drop start).take (ending - start)).map
              Segment.terms) = none) := by
  refine ⟨findEligibleMergeRun_isSome proper counted,
    fun start ending found => findEligibleMergeRun_best proper counted found, ?_, fun files => ?_⟩
  · rintro ⟨states, -, steps⟩
    exact (wellFounded_iff_isEmpty_descending_chain.mp (mergeStep_wellFounded proper)).false
      ⟨states, steps⟩
  · have loop : index.maybeMergeAfterSeal settings files =
        index.mergeLoop settings files index.sealedSegments.length := if_neg (by omega)
    rw [loop]
    cases finished : index.mergeLoop settings files index.sealedSegments.length with
    | some last =>
      left
      have reached := mergeLoop_reaches _ finished
      obtain ⟨active, counted'⟩ := mergeSteps_kept proper counted reached
      have exhausted := mergeLoop_exhausts proper _ le_rfl finished
      refine ⟨last, rfl, reached, active, ?_⟩
      rw [← findEligibleMergeRun_isSome proper counted', exhausted]
      simp
    | none =>
      right
      obtain ⟨stuck, start, ending, termsFile, subfieldFile, reached, eligible, panicked⟩ :=
        mergeLoop_panics _ finished
      obtain ⟨active, counted'⟩ := mergeSteps_kept proper counted reached
      exact ⟨rfl, stuck, start, ending, reached, active,
        (findEligibleMergeRun_best proper counted' eligible).1, mergedFields_of_panic panicked⟩

def threeSealed : DocumentIndex (List UInt8) :=
  { (DocumentIndex.new : DocumentIndex (List UInt8)) with
    sealedSegments := [{ Segment.new 0 with docCount := 1 }, { Segment.new 1 with docCount := 20 },
      { Segment.new 21 with docCount := 30 }]
    active := .new 51 }

theorem threeSealed_selects :
    threeSealed.findEligibleMergeRun 2 none = some (1, 3) := by decide

theorem merge_selection_optimal_threeSealed :
    EligibleRun 2 none threeSealed.sealedSizes 1 3 :=
  ((@merge_selection_optimal _ (sampleSettings false) threeSealed le_rfl
    ⟨by simp [threeSealed, sealedSizes], by simp [sampleSettings]⟩).2.1 1 3
      threeSealed_selects).1

end DocumentIndex

end Surch.Index
