import Surch.Index.Filing

/-! Whether the steps of a run fit can be computed where no read of the files fails. -/
namespace Surch.Index
open Surch.Lib Surch.Postings

variable {Digest : Type}

def Files.Read (files : Files) : Prop := ∀ n offset length, (files n).reads offset length = true

def Step.Read : Step → Prop
  | .addDocuments _ _ _ files => files.Read
  | .materializeTerms files => files.Read
  | .maybeFlushByBudget _ files => files.Read
  | .materializeTermsAndFinalizePostings files => files.Read
  | .clear => True

namespace DocumentIndex

section Checks

variable (settings : Settings Digest)

def buildFits (index : DocumentIndex Digest) (files : Files) : Bool :=
  addressable settings.postingsDiskEnabled index.postingsBuilder.invert &&
    (!settings.postingsDiskEnabled ||
      (index.buildActiveTerms settings files).postingsSegment.isSome)

def mergeFits (index : DocumentIndex Digest) (start ending : Nat) (termsFile : Device) : Bool :=
  let sources := ((index.sealedSegments.drop start).take (ending - start)).map Segment.terms
  (mergedFields sources).all (addressable settings.postingsDiskEnabled) &&
    (!settings.postingsDiskEnabled ||
      (mergeTermDictionaries settings.hash termsFile sources settings.postingsDiskEnabled
        (index.p2IntegrityBudgetExcluding start ending)).all fun dictionary =>
          dictionary.postingsSegment.isSome)

def mergesFit (files : Files) : Nat → DocumentIndex Digest → Bool
  | 0, _ => true
  | fuel + 1, index =>
    (index.findEligibleMergeRun settings.mergeFanin settings.mergeMaxDocs).all fun run =>
      index.mergeFits settings run.1 run.2 (files (2 * fuel + 2)) &&
        (index.mergeSegmentsRun settings run.1 run.2 (files (2 * fuel + 2)) (files (2 * fuel + 3))).all
          fun merged => mergesFit files fuel merged

def sealFits (index : DocumentIndex Digest) (files : Files) : Bool :=
  (!index.termsDirty || index.buildFits settings files) &&
    mergesFit settings files (index.sealActive settings files).sealedSegments.length
      (index.sealActive settings files)

def batchFits (index : DocumentIndex Digest) (documents : List Document) (mapping : IndexMapping)
    (deferred : Bool) (files : Files) : Bool :=
  (documents.all fun document =>
    decide (document.Visible settings.unicode mapping ∧ document.docId < 2 ^ 32 - 1)) &&
    (deferred || (index.mergeAll
      (documents.map (analyzeDocument settings.unicode mapping))).2.buildFits settings files)

def stepFits (index : DocumentIndex Digest) : Step → Bool
  | .addDocuments documents mapping deferred files =>
    index.batchFits settings documents mapping deferred files
  | .materializeTerms files => !index.termsDirty || index.buildFits settings files
  | .maybeFlushByBudget _ files => index.sealFits settings files
  | .materializeTermsAndFinalizePostings files => index.sealFits settings files
  | .clear => true

def checkRun (check : DocumentIndex Digest → Step → Bool) (index : DocumentIndex Digest) :
    List Step → Bool
  | [] => true
  | action :: rest =>
    check index action && (index.step settings action).all fun next => checkRun check next rest

end Checks

variable {settings : Settings Digest} {index : DocumentIndex Digest} {files : Files}

theorem dirty_sound {P : Prop} {checked : Bool} (sound : checked = true → P)
    (either : (!index.termsDirty || checked) = true) (dirty : index.termsDirty = true) : P := by
  rw [dirty] at either
  exact sound either

theorem buildFits_sound (read : files.Read) (checked : index.buildFits settings files = true) :
    index.BuildFits settings files := by
  obtain ⟨fits, present⟩ := Bool.and_eq_true .. ▸ checked
  refine ⟨addressable_sound fits, fun onDisk => ?_⟩
  rw [onDisk] at present
  rw [buildActiveTerms, buildWithLimit_eq] at present ⊢
  exact readable_of_isSome settings.hash (read 0) present

theorem mergeFits_sound {start ending : Nat} {termsFile : Device}
    (reads : ∀ offset length, termsFile.reads offset length = true)
    (checked : index.mergeFits settings start ending termsFile = true) :
    index.MergeFits settings start ending termsFile := by
  obtain ⟨fits, present⟩ := Bool.and_eq_true .. ▸ checked
  constructor
  · intro inverted merged
    rw [merged, Option.all_some] at fits
    exact addressable_sound fits
  · intro onDisk dictionary merged
    rw [onDisk] at present
    cases fields : mergedFields (((index.sealedSegments.drop start).take (ending - start)).map
        Segment.terms) with
    | none =>
      rw [mergeTermDictionaries, fields] at merged
      cases merged
    | some inverted =>
      rw [mergeTermDictionaries_eq _ _ _ _ _ fields] at merged
      cases merged
      rw [mergeTermDictionaries_eq _ _ _ _ _ fields] at present
      rw [onDisk]
      exact readable_of_isSome settings.hash reads present

theorem mergesFit_sound (read : files.Read) {fuel : Nat}
    (checked : mergesFit settings files fuel index = true) : MergesFit settings files fuel index := by
  induction fuel generalizing index with
  | zero => trivial
  | succ fuel ih =>
    intro run eligible
    rw [mergesFit, eligible, Option.all_some, Bool.and_eq_true] at checked
    refine ⟨mergeFits_sound (read _) checked.1, fun merged result => ?_⟩
    have later := checked.2
    rw [result, Option.all_some] at later
    exact ih later

theorem sealFits_sound (read : files.Read) (checked : index.sealFits settings files = true) :
    index.SealFits settings files := by
  obtain ⟨build, merges⟩ := Bool.and_eq_true .. ▸ checked
  exact ⟨dirty_sound (buildFits_sound read) build, fun _ _ => mergesFit_sound read merges⟩

theorem stepFits_sound {action : Step} (read : action.Read)
    (checked : index.stepFits settings action = true) : index.StepFits settings action := by
  cases action with
  | addDocuments documents mapping deferred files =>
    obtain ⟨each, build⟩ := Bool.and_eq_true .. ▸ checked
    refine .inr ⟨fun document member => of_decide_eq_true (List.all_eq_true.mp each document member), ?_⟩
    intro now
    rw [now] at build
    exact buildFits_sound read build
  | materializeTerms files => exact dirty_sound (buildFits_sound read) checked
  | maybeFlushByBudget memoryBytes files => exact fun _ => sealFits_sound read checked
  | materializeTermsAndFinalizePostings files => exact sealFits_sound read checked
  | clear => trivial

theorem checkRun_sound {check : DocumentIndex Digest → Step → Bool}
    {condition : DocumentIndex Digest → Step → Prop} {steps : List Step}
    (sound : ∀ action ∈ steps, ∀ index, check index action = true → condition index action)
    (checked : checkRun settings check index steps = true) : Meets settings condition index steps := by
  induction steps generalizing index with
  | nil => trivial
  | cons action rest ih =>
    obtain ⟨here, later⟩ := Bool.and_eq_true .. ▸ checked
    refine ⟨sound action List.mem_cons_self index here, fun next stepped => ?_⟩
    rw [stepped, Option.all_some] at later
    exact ih (fun other member => sound other (List.mem_cons_of_mem _ member)) later

theorem meets_append {condition : DocumentIndex Digest → Step → Prop} {steps more : List Step}
    {next : DocumentIndex Digest} (meets : Meets settings condition index (steps ++ more))
    (reached : index.run settings steps = some next) : Meets settings condition next more := by
  induction steps generalizing index with
  | nil =>
    cases reached
    exact meets
  | cons action rest ih =>
    obtain ⟨middle, stepped, later⟩ := Option.bind_eq_some_iff.mp reached
    exact ih (meets.2 middle stepped) later

theorem meets_and {condition : DocumentIndex Digest → Step → Prop} {other : Step → Prop}
    {steps : List Step} (meets : Meets settings condition index steps)
    (each : ∀ action ∈ steps, other action) :
    Meets settings (fun index action => condition index action ∧ other action) index steps := by
  induction steps generalizing index with
  | nil => trivial
  | cons action rest ih =>
    refine ⟨⟨meets.1, each action List.mem_cons_self⟩, fun next stepped => ?_⟩
    exact ih (meets.2 next stepped) fun later member => each later (List.mem_cons_of_mem _ member)

/-- A run on files that can be read fits when its steps pass the check. -/
theorem checkRun_fits {steps : List Step} (read : ∀ action ∈ steps, action.Read)
    (checked : checkRun settings (stepFits settings) index steps = true) :
    Meets settings (StepFits settings) index steps :=
  checkRun_sound (fun action member _ here => stepFits_sound (read action member) here) checked

end DocumentIndex

section Sample

theorem reliableFiles_read : reliableFiles.Read := fun _ _ _ => rfl

def mergingRun : List Step :=
  [.addDocuments [sampleDocument 0 "rust"] .default true reliableFiles,
    .maybeFlushByBudget 1 reliableFiles,
    .addDocuments [sampleDocument 1 "rust lean"] .default true reliableFiles,
    .maybeFlushByBudget 1 reliableFiles,
    .addDocuments [sampleDocument 2 "lean"] .default true reliableFiles,
    .materializeTerms reliableFiles]

theorem mergingRun_fits : DocumentIndex.Meets (sampleSettings true)
    (DocumentIndex.StepFits (sampleSettings true)) .new mergingRun :=
  DocumentIndex.checkRun_fits (by simp [mergingRun, Step.Read, reliableFiles_read])
    (by decide +kernel)

end Sample

end Surch.Index
