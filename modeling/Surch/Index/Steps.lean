import Surch.Index.DocumentIndex

/-! What the operations of an index leave alone, which runs a merge may pick, and the rules by which
a property passes along merges and whole runs. -/
namespace Surch.Index
open Surch.Lib Surch.Codec Surch.Postings

variable {Digest : Type} {settings : Settings Digest}

section Selection

theorem extendRun_le (maxDocs : Option Nat) (runMin runMax runSum : Nat) (sizes : List Nat) :
    extendRun maxDocs runMin runMax runSum sizes ≤ sizes.length := by
  induction sizes generalizing runMin runMax runSum with
  | nil => exact Nat.zero_le _
  | cons size rest ih =>
    simp only [extendRun, List.length_cons]
    split
    · exact Nat.zero_le _
    split
    · exact Nat.zero_le _
    · have := ih (min runMin size) (max runMax size) (saturatingAddU64 runSum size)
      omega

theorem selectRun_spec {fanin : Nat} {maxDocs : Option Nat} {sizes : List Nat} {start ending : Nat}
    (selected : selectRun fanin maxDocs sizes = some (start, ending)) :
    start + fanin ≤ ending ∧ ending ≤ sizes.length := by
  have loop : ∀ (starts : List Nat) (best : Option (Nat × Nat)),
      (∀ i ∈ starts, i < sizes.length) →
      (∀ kept, best = some kept → kept.1 + fanin ≤ kept.2 ∧ kept.2 ≤ sizes.length) →
      ∀ kept, starts.foldl
        (fun best start =>
          let len := runLength maxDocs sizes start
          if len ≥ fanin ∧ best.all (fun kept => len > kept.2 - kept.1) then
            some (start, start + len)
          else best)
        best = some kept → kept.1 + fanin ≤ kept.2 ∧ kept.2 ≤ sizes.length := by
    intro starts
    induction starts with
    | nil => exact fun best _ good => good
    | cons i rest ih =>
      intro best inside good kept found
      refine ih _ (fun j member => inside j (List.mem_cons_of_mem _ member)) ?_ kept found
      intro chosen here
      dsimp only at here
      split at here
      · rename_i long
        cases here
        have bound := extendRun_le maxDocs (sizes.getD i 0) (sizes.getD i 0) (sizes.getD i 0)
          (sizes.drop (i + 1))
        have position := inside i List.mem_cons_self
        rw [List.length_drop] at bound
        simp only [runLength] at long ⊢
        omega
      · exact good chosen here
  exact loop (List.range sizes.length) none (fun i member => List.mem_range.mp member)
    (fun _ absurd_none => by cases absurd_none) (start, ending) selected

end Selection

namespace DocumentIndex

theorem findEligibleMergeRun_spec {index : DocumentIndex Digest} {fanin : Nat}
    {maxDocs : Option Nat} {start ending : Nat}
    (eligible : index.findEligibleMergeRun fanin maxDocs = some (start, ending)) :
    start + fanin ≤ ending ∧ ending ≤ index.sealedSegments.length := by
  unfold findEligibleMergeRun at eligible
  split at eligible
  · cases eligible
  · have spec := selectRun_spec eligible
    rwa [List.length_map] at spec

structure Cut (index : DocumentIndex Digest) (start ending : Nat)
    (before run after : List (Segment Digest)) : Prop where
  sealed : index.sealedSegments = before ++ run ++ after
  run_eq : run = (index.sealedSegments.drop start).take (ending - start)
  taken : index.sealedSegments.take start = before
  dropped : index.sealedSegments.drop ending = after
  nonempty : run ≠ []

theorem exists_cut {index : DocumentIndex Digest} {start ending : Nat} (proper : start < ending)
    (inside : ending ≤ index.sealedSegments.length) :
    ∃ before run after, index.Cut start ending before run after := by
  refine ⟨_, _, _, ?_, rfl, rfl, rfl, ?_⟩
  · have middle : (index.sealedSegments.drop start).drop (ending - start) =
        index.sealedSegments.drop ending := by
      rw [List.drop_drop]
      congr 1
      omega
    rw [← middle, List.append_assoc, List.take_append_drop, List.take_append_drop]
  · rw [← List.length_pos_iff, List.length_take, List.length_drop]
    omega

/-- A merge replaces a run of sealed segments by its merged segment and nothing else. -/
theorem mergeSegmentsRun_spec {index merged : DocumentIndex Digest} {start ending : Nat}
    {termsFile subfieldFile : Device} (proper : start < ending)
    (inside : ending ≤ index.sealedSegments.length)
    (produced : index.mergeSegmentsRun settings start ending termsFile subfieldFile = some merged) :
    ∃ before run after segment, index.Cut start ending before run after ∧
      mergedSegment settings run (index.p2IntegrityBudgetExcluding start ending) termsFile
        subfieldFile = some segment ∧
      merged = { index with sealedSegments := before ++ [segment] ++ after } := by
  obtain ⟨before, run, after, cut⟩ := exists_cut proper inside
  simp only [mergeSegmentsRun, Option.bind_eq_bind, Option.bind_eq_some_iff, Option.pure_def] at produced
  obtain ⟨segment, built, result⟩ := produced
  rw [← cut.run_eq] at built
  refine ⟨before, run, after, segment, cut, built, ?_⟩
  rw [← Option.some.inj result, cut.taken, cut.dropped]

theorem mergeLoop_rule {P : DocumentIndex Digest → Prop} {files : Files}
    (fanin : 2 ≤ settings.mergeFanin)
    (merge : ∀ index merged : DocumentIndex Digest, ∀ start ending termsFile subfieldFile,
      P index → start < ending → ending ≤ index.sealedSegments.length →
      index.mergeSegmentsRun settings start ending termsFile subfieldFile = some merged → P merged)
    (fuel : Nat) {index last : DocumentIndex Digest} (initial : P index)
    (finished : index.mergeLoop settings files fuel = some last) : P last := by
  induction fuel generalizing index with
  | zero =>
    cases finished
    exact initial
  | succ fuel ih =>
    rw [mergeLoop] at finished
    split at finished
    · cases finished
      exact initial
    · rename_i start ending eligible
      obtain ⟨long, inside⟩ := findEligibleMergeRun_spec eligible
      obtain ⟨merged, produced, rest⟩ := Option.bind_eq_some_iff.mp finished
      exact ih (merge index merged start ending _ _ initial (by omega) inside produced) rest

/-- The merge loop stops because no run is eligible, not because its bound is reached. -/
theorem mergeLoop_exhausts {files : Files} (fanin : 2 ≤ settings.mergeFanin) (fuel : Nat)
    {index last : DocumentIndex Digest} (enough : index.sealedSegments.length ≤ fuel)
    (finished : index.mergeLoop settings files fuel = some last) :
    last.findEligibleMergeRun settings.mergeFanin settings.mergeMaxDocs = none := by
  induction fuel generalizing index with
  | zero =>
    cases finished
    rw [findEligibleMergeRun, if_pos (by omega)]
  | succ fuel ih =>
    rw [mergeLoop] at finished
    split at finished
    · rename_i stuck
      cases finished
      exact stuck
    · rename_i start ending eligible
      obtain ⟨long, inside⟩ := findEligibleMergeRun_spec eligible
      obtain ⟨merged, produced, rest⟩ := Option.bind_eq_some_iff.mp finished
      obtain ⟨before, run, after, segment, cut, _, rfl⟩ :=
        mergeSegmentsRun_spec (by omega) inside produced
      refine ih ?_ rest
      have total := congrArg List.length cut.sealed
      have run_length := congrArg List.length cut.run_eq
      rw [List.length_take, List.length_drop] at run_length
      simp only [List.length_append, List.length_singleton] at total ⊢
      omega

theorem maybeMergeAfterSeal_rule {P : DocumentIndex Digest → Prop} {files : Files}
    (merge : ∀ index merged : DocumentIndex Digest, ∀ start ending termsFile subfieldFile,
      P index → start < ending → ending ≤ index.sealedSegments.length →
      index.mergeSegmentsRun settings start ending termsFile subfieldFile = some merged → P merged)
    {index last : DocumentIndex Digest} (initial : P index)
    (finished : index.maybeMergeAfterSeal settings files = some last) : P last := by
  unfold maybeMergeAfterSeal at finished
  split at finished
  · cases finished
    exact initial
  · rename_i fanin
    exact mergeLoop_rule (not_lt.mp fanin) merge _ initial finished

/-- The two operations that may seal: either nothing happens, or the active segment is materialized
in place, or it is sealed and merges follow. -/
theorem sealing_cases {index last : DocumentIndex Digest} {files : Files} {memoryBytes : Nat}
    (finished : index.maybeFlushByBudget settings memoryBytes files = some last ∨
      index.materializeTermsAndFinalizePostings settings files = some last) :
    last = index ∨
      (settings.flushBudgetBytes = none ∧
        last = index.materializeActiveSegmentTerms settings files) ∨
      (settings.flushBudgetBytes.isSome = true ∧
        (index.sealActive settings files).maybeMergeAfterSeal settings files = some last) := by
  rcases finished with finished | finished
  · unfold maybeFlushByBudget at finished
    split at finished
    · cases finished
      exact .inl rfl
    · rename_i budget configured
      split at finished
      · cases finished
        exact .inl rfl
      · exact .inr (.inr ⟨by rw [configured]; rfl, finished⟩)
  · unfold materializeTermsAndFinalizePostings at finished
    split at finished
    · rename_i configured
      exact .inr (.inr ⟨configured, finished⟩)
    · rename_i missing
      cases finished
      exact .inr (.inl ⟨by simpa using missing, rfl⟩)

def Meets (settings : Settings Digest) (condition : DocumentIndex Digest → Step → Prop) :
    DocumentIndex Digest → List Step → Prop
  | _, [] => True
  | index, action :: rest =>
    condition index action ∧
      ∀ next, index.step settings action = some next → Meets settings condition next rest

theorem run_rule {P : DocumentIndex Digest → Prop} {condition : DocumentIndex Digest → Step → Prop}
    (each : ∀ index next : DocumentIndex Digest, ∀ action, P index → condition index action →
      index.step settings action = some next → P next)
    {steps : List Step} {index last : DocumentIndex Digest} (initial : P index)
    (meets : Meets settings condition index steps)
    (finished : index.run settings steps = some last) : P last := by
  induction steps generalizing index with
  | nil =>
    cases finished
    exact initial
  | cons action rest ih =>
    obtain ⟨next, stepped, later⟩ := Option.bind_eq_some_iff.mp finished
    exact ih (each index next action initial meets.1 stepped) (meets.2 next stepped) later

theorem run_append (index : DocumentIndex Digest) (steps more : List Step) :
    index.run settings (steps ++ more) =
      (index.run settings steps).bind fun next => next.run settings more := by
  induction steps generalizing index with
  | nil => rfl
  | cons action rest ih => simp [run, ih, Option.bind_assoc]

theorem meets_true (index : DocumentIndex Digest) (steps : List Step) :
    Meets settings (fun _ _ => True) index steps := by
  induction steps generalizing index with
  | nil => trivial
  | cons action rest ih => exact ⟨trivial, fun next _ => ih next⟩

/- What merging documents leaves of an index: everything but the columns of the active segment, the
builder, the prefixes and the hint. -/
structure Kept (before after : DocumentIndex Digest) : Prop where
  sealedSegments : after.sealedSegments = before.sealedSegments
  terms : after.active.terms = before.active.terms
  docBase : after.active.docBase = before.active.docBase
  docCount : after.active.docCount = before.active.docCount
  subfieldSegment : after.active.subfieldSegment = before.active.subfieldSegment
  termsDirty : after.termsDirty = before.termsDirty

theorem mergeAnalyzed_kept (index : DocumentIndex Digest) (document : AnalyzedDocument) :
    index.Kept (index.mergeAnalyzed document).2 := by
  unfold mergeAnalyzed
  dsimp only
  split <;> exact ⟨rfl, rfl, rfl, rfl, rfl, rfl⟩

theorem Kept.trans {first second third : DocumentIndex Digest} (left : first.Kept second)
    (right : second.Kept third) : first.Kept third where
  sealedSegments := right.sealedSegments.trans left.sealedSegments
  terms := right.terms.trans left.terms
  docBase := right.docBase.trans left.docBase
  docCount := right.docCount.trans left.docCount
  subfieldSegment := right.subfieldSegment.trans left.subfieldSegment
  termsDirty := right.termsDirty.trans left.termsDirty

theorem mergeAll_kept (index : DocumentIndex Digest) (documents : List AnalyzedDocument) :
    index.Kept (index.mergeAll documents).2 := by
  induction documents generalizing index with
  | nil => exact ⟨rfl, rfl, rfl, rfl, rfl, rfl⟩
  | cons document rest ih =>
    have first := index.mergeAnalyzed_kept document
    rw [mergeAll]
    cases merged : index.mergeAnalyzed document with
    | mk outcome next =>
      rw [merged] at first
      cases outcome with
      | error e => exact first
      | ok _ => exact first.trans (ih next)

theorem clear_eq (index : DocumentIndex Digest) : index.clear = new := by
  unfold clear
  dsimp only
  split
  · rename_i alone
    simp only [alone]
    rfl
  · rfl

end DocumentIndex

section Sample

/- Every seal adds a segment and two segments are merged; the identity stands for the hash. -/
def sampleSettings (postingsDiskEnabled : Bool) : Settings (List UInt8) where
  flushBudgetBytes := some 1
  mergeFanin := 2
  mergeMaxDocs := none
  postingsDiskEnabled := postingsDiskEnabled
  hash := id
  unicode := .ascii

def reliableFiles : Files := fun _ => .reliable

def sampleDocument (docId : UInt32) (title : String) : Document where
  docId := docId.toNat
  fields := [("title", title)]
  docId_fits := docId.toNat_lt

end Sample

end Surch.Index
