import Surch.Index.Steps
import Surch.Postings.Ceiling

/-! The attestation ceiling over all segments of an index. Each rebuild is given what the other
segments leave of the ceiling. -/
namespace Surch.Index
open Surch.Lib Surch.Codec Surch.Postings

variable {Digest : Type} {settings : Settings Digest}

structure TableTiled (dictionary : TermDictionary Digest) : Prop where
  digests : dictionary.p2Integrity.digests.length < 2 ^ 32
  protectedFields : dictionary.p2Integrity.protectedFields < 2 ^ 32
  tiles : DigestTiles 0 dictionary.p2Integrity.digests.length
    (publishedRegions (dictionary.fields.entries.map Prod.snd))

theorem emptyTerms_tiled : TableTiled (emptyTerms : TermDictionary Digest) where
  digests := Nat.two_pow_pos 32
  protectedFields := Nat.two_pow_pos 32
  tiles := rfl

/-- A small table costs what the admission counts; no sum saturates. -/
theorem TableTiled.bytes_eq {dictionary : TermDictionary Digest} (tiled : TableTiled dictionary) :
    dictionary.p2Integrity.bytes =
      p2ByteCost dictionary.p2Integrity.digests.length dictionary.p2Integrity.protectedFields := by
  have digests := tiled.digests
  have fields := tiled.protectedFields
  simp only [P2IntegrityTable.bytes, p2ByteCost, saturatingAddU64, p2IntegrityDigestLen,
    p2VerifiedRegionSize]
  omega

theorem assemble_tiled (hash : List UInt8 → Digest) (device : Device) (diskEnabled : Bool)
    (maxBytes : Nat) (fields : SortedMap String (Fst × FieldChannels)) :
    TableTiled (assemble hash device diskEnabled maxBytes fields) ∧
      (assemble hash device diskEnabled maxBytes fields).p2Integrity.bytes ≤ maxBytes := by
  obtain ⟨digests, protectedFields, cost, tiles⟩ :=
    assemble_table hash device diskEnabled maxBytes fields
  have tiled : TableTiled (assemble hash device diskEnabled maxBytes fields) :=
    ⟨digests, protectedFields, tiles⟩
  exact ⟨tiled, by rw [tiled.bytes_eq]; exact cost⟩

theorem buildWithLimit_tiled (hash : List UInt8 → Digest) (device : Device)
    (builder : PostingsBuilder) (diskEnabled : Bool) (maxBytes : Nat) :
    TableTiled (builder.buildWithLimit hash device diskEnabled maxBytes) ∧
      (builder.buildWithLimit hash device diskEnabled maxBytes).p2Integrity.bytes ≤ maxBytes := by
  unfold PostingsBuilder.buildWithLimit
  exact assemble_tiled hash device diskEnabled maxBytes _

theorem mergeTermDictionaries_tiled {hash : List UInt8 → Digest} {device : Device}
    {sources : List (TermDictionary Digest)} {diskEnabled : Bool} {maxBytes : Nat}
    {merged : TermDictionary Digest}
    (produced : mergeTermDictionaries hash device sources diskEnabled maxBytes = some merged) :
    TableTiled merged ∧ merged.p2Integrity.bytes ≤ maxBytes := by
  obtain ⟨fields, _, result⟩ := Option.bind_eq_some_iff.mp produced
  cases result
  exact assemble_tiled hash device diskEnabled maxBytes _

def attestedBytes (dictionaries : List (TermDictionary Digest)) : Nat :=
  (dictionaries.map fun dictionary => dictionary.p2Integrity.bytes).sum

theorem attestedBytes_append (first second : List (TermDictionary Digest)) :
    attestedBytes (first ++ second) = attestedBytes first + attestedBytes second := by
  rw [attestedBytes, List.map_append, List.sum_append]
  rfl

structure UnderCeiling (dictionaries : List (TermDictionary Digest)) : Prop where
  total : attestedBytes dictionaries ≤ p2IntegrityMaxBytes
  tiled : ∀ dictionary ∈ dictionaries, TableTiled dictionary

/-- Replacing a run of dictionaries by one that stays within what the others leave. -/
theorem UnderCeiling.replace {before run after : List (TermDictionary Digest)}
    (under : UnderCeiling (before ++ run ++ after)) {dictionary : TermDictionary Digest}
    (tiled : TableTiled dictionary)
    (cheap : dictionary.p2Integrity.bytes ≤
      p2IntegrityMaxBytes - attestedBytes (before ++ after)) :
    UnderCeiling (before ++ [dictionary] ++ after) := by
  have total := under.total
  have alone : attestedBytes [dictionary] = dictionary.p2Integrity.bytes := by
    simp [attestedBytes]
  simp only [attestedBytes_append] at total cheap
  constructor
  · rw [attestedBytes_append, attestedBytes_append, alone]
    omega
  · intro other member
    simp only [List.mem_append, List.mem_singleton] at member
    rcases member with (member | rfl) | member
    · exact under.tiled other (by simp [member])
    · exact tiled
    · exact under.tiled other (by simp [member])

theorem foldl_saturatingAddU64 (costs : List Nat) (start : Nat)
    (small : start + costs.sum < 2 ^ 64) :
    costs.foldl saturatingAddU64 start = start + costs.sum := by
  induction costs generalizing start with
  | nil => rfl
  | cons cost costs ih =>
    rw [List.sum_cons] at small
    have exact_sum : saturatingAddU64 start cost = start + cost := by
      simp only [saturatingAddU64]
      omega
    rw [List.foldl_cons, exact_sum, ih _ (by omega), List.sum_cons]
    omega

namespace DocumentIndex

def dictionaries (index : DocumentIndex Digest) : List (TermDictionary Digest) :=
  index.segments.map Segment.terms

theorem dictionaries_eq (index : DocumentIndex Digest) :
    index.dictionaries = index.sealedSegments.map Segment.terms ++ [index.active.terms] := by
  rw [dictionaries, segments, List.map_append]
  rfl

/-- The budget of a rebuild is what the kept segments leave of the ceiling. -/
theorem p2IntegrityBudgetExcluding_eq {index : DocumentIndex Digest} {start ending : Nat}
    (ordered : start ≤ ending) (under : UnderCeiling index.dictionaries) :
    index.p2IntegrityBudgetExcluding start ending =
      p2IntegrityMaxBytes -
        attestedBytes (index.dictionaries.take start ++ index.dictionaries.drop ending) := by
  have whole := under.total
  have split : index.dictionaries.take start ++ (index.dictionaries.drop start).take
      (ending - start) ++ index.dictionaries.drop ending = index.dictionaries := by
    have later : index.dictionaries.drop ending =
        (index.dictionaries.drop start).drop (ending - start) := by
      rw [List.drop_drop]
      congr 1
      omega
    rw [later, List.append_assoc, List.take_append_drop, List.take_append_drop]
  rw [← split, attestedBytes_append, attestedBytes_append] at whole
  have kept : (index.segments.take start ++ index.segments.drop ending).map
        (fun segment => segment.terms.p2Integrity.bytes) =
      (index.dictionaries.take start ++ index.dictionaries.drop ending).map
        fun dictionary => dictionary.p2Integrity.bytes := by
    simp only [dictionaries, List.map_append, List.map_take, List.map_drop, List.map_map]
    rfl
  have small : attestedBytes (index.dictionaries.take start ++ index.dictionaries.drop ending) <
      2 ^ 64 := by
    rw [attestedBytes_append]
    rw [p2IntegrityMaxBytes] at whole
    omega
  rw [p2IntegrityBudgetExcluding, kept, foldl_saturatingAddU64 _ 0 (by simpa [attestedBytes] using small), Nat.zero_add]
  rfl

theorem buildActiveTerms_underCeiling {index : DocumentIndex Digest} (files : Files)
    (under : UnderCeiling index.dictionaries) :
    UnderCeiling
      (index.sealedSegments.map Segment.terms ++ [index.buildActiveTerms settings files]) := by
  have size : index.segments.length - 1 = (index.sealedSegments.map Segment.terms).length := by
    rw [segments, List.length_append, List.length_singleton, List.length_map, Nat.add_sub_cancel]
  have others : index.dictionaries.take (index.segments.length - 1) ++
      index.dictionaries.drop (index.segments.length - 1 + 1) =
        index.sealedSegments.map Segment.terms ++ [] := by
    rw [size, dictionaries_eq, List.take_left, List.drop_eq_nil_of_le (by simp)]
  have budget := p2IntegrityBudgetExcluding_eq (Nat.le_succ (index.segments.length - 1)) under
  rw [Nat.succ_eq_add_one, others] at budget
  obtain ⟨tiled, cheap⟩ := buildWithLimit_tiled settings.hash (files 0) index.postingsBuilder
    settings.postingsDiskEnabled
    (index.p2IntegrityBudgetExcluding (index.segments.length - 1) (index.segments.length - 1 + 1))
  have whole : UnderCeiling (index.sealedSegments.map Segment.terms ++ [index.active.terms] ++ []) := by
    rwa [List.append_nil, ← dictionaries_eq]
  have replaced := whole.replace tiled (budget ▸ cheap)
  rwa [List.append_nil] at replaced

theorem mergeSegmentsRun_underCeiling {index merged : DocumentIndex Digest} {start ending : Nat}
    {termsFile subfieldFile : Device} (under : UnderCeiling index.dictionaries)
    (proper : start < ending) (inside : ending ≤ index.sealedSegments.length)
    (produced : index.mergeSegmentsRun settings start ending termsFile subfieldFile = some merged) :
    UnderCeiling merged.dictionaries := by
  obtain ⟨before, run, after, segment, cut, built, rfl⟩ :=
    mergeSegmentsRun_spec proper inside produced
  have budget := p2IntegrityBudgetExcluding_eq (Nat.le_of_lt proper) under
  have all : index.dictionaries = before.map Segment.terms ++ run.map Segment.terms ++
      (after.map Segment.terms ++ [index.active.terms]) := by
    rw [dictionaries_eq, cut.sealed, List.map_append, List.map_append, List.append_assoc]
  have others : index.dictionaries.take start ++ index.dictionaries.drop ending =
      before.map Segment.terms ++ (after.map Segment.terms ++ [index.active.terms]) := by
    rw [dictionaries_eq, List.take_append_of_le_length (by rw [List.length_map]; omega),
      List.drop_append_of_le_length (by rw [List.length_map]; omega), ← List.map_take,
      ← List.map_drop, cut.taken, cut.dropped]
  rw [others] at budget
  simp only [mergedSegment, Option.bind_eq_bind, Option.bind_eq_some_iff, Option.pure_def] at built
  obtain ⟨terms, joined, result⟩ := built
  obtain ⟨tiled, cheap⟩ := mergeTermDictionaries_tiled joined
  rw [budget] at cheap
  rw [all] at under
  have replaced := under.replace tiled cheap
  rw [dictionaries_eq, ← Option.some.inj result]
  simpa [List.append_assoc] using replaced

theorem sealActive_underCeiling (settings : Settings Digest) {index : DocumentIndex Digest}
    (files : Files) (under : UnderCeiling index.dictionaries) :
    UnderCeiling (index.materializeActiveSegmentTerms settings files).dictionaries ∧
      UnderCeiling (index.sealActive settings files).dictionaries := by
  have materialized :
      UnderCeiling (index.materializeActiveSegmentTerms settings files).dictionaries := by
    rw [dictionaries_eq]
    change UnderCeiling (index.sealedSegments.map Segment.terms ++
      [if index.termsDirty then index.buildActiveTerms settings files else index.active.terms])
    split
    · exact buildActiveTerms_underCeiling files under
    · rwa [dictionaries_eq] at under
  refine ⟨materialized, ?_⟩
  rw [sealActive, startNewActiveSegmentIfNonempty]
  split
  · exact materialized
  · rw [dictionaries_eq] at materialized ⊢
    have fresh : attestedBytes [(emptyTerms : TermDictionary Digest)] = 0 := rfl
    rw [List.map_append]
    constructor
    · rw [attestedBytes_append]
      exact fresh ▸ materialized.total
    · intro dictionary member
      rcases List.mem_append.mp member with member | member
      · exact materialized.tiled dictionary member
      · cases List.mem_singleton.mp member
        exact emptyTerms_tiled

theorem step_underCeiling {index next : DocumentIndex Digest} {action : Step}
    (under : UnderCeiling index.dictionaries) (stepped : index.step settings action = some next) :
    UnderCeiling next.dictionaries := by
  have sealing : ∀ files memoryBytes, (index.maybeFlushByBudget settings memoryBytes files =
      some next ∨ index.materializeTermsAndFinalizePostings settings files = some next) →
      UnderCeiling next.dictionaries := by
    intro files memoryBytes finished
    obtain ⟨materialized, closed⟩ := sealActive_underCeiling settings files under
    rcases sealing_cases finished with rfl | ⟨_, rfl⟩ | ⟨_, merged⟩
    · exact under
    · exact materialized
    · refine maybeMergeAfterSeal_rule (P := fun index => UnderCeiling index.dictionaries) ?_ closed
        merged
      intro index merged start ending termsFile subfieldFile under proper inside produced
      exact mergeSegmentsRun_underCeiling under proper inside produced
  cases action with
  | addDocuments documents mapping deferred files =>
    cases stepped
    unfold addDocuments
    split
    · exact under
    · have kept := index.mergeAll_kept (documents.map (analyzeDocument settings.unicode mapping))
      cases merged : index.mergeAll (documents.map (analyzeDocument settings.unicode mapping)) with
      | mk outcome written =>
        rw [merged] at kept
        have same : written.dictionaries = index.dictionaries := by
          rw [dictionaries_eq, dictionaries_eq, kept.sealedSegments, kept.terms]
        rw [← same] at under
        cases outcome with
        | error error => exact under
        | ok _ =>
          dsimp only
          split
          · exact under
          · rw [dictionaries_eq]
            exact buildActiveTerms_underCeiling files under
  | materializeTerms files =>
    cases stepped
    unfold materializeTerms
    split
    · exact under
    · rw [dictionaries_eq]
      exact buildActiveTerms_underCeiling files under
  | maybeFlushByBudget memoryBytes files => exact sealing files memoryBytes (.inl stepped)
  | materializeTermsAndFinalizePostings files => exact sealing files 0 (.inr stepped)
  | clear =>
    cases stepped
    rw [clear_eq]
    refine ⟨Nat.zero_le _, ?_⟩
    intro dictionary member
    cases List.mem_singleton.mp member
    exact emptyTerms_tiled

end DocumentIndex

/-- In every state of every run the digests of all segments stay under the ceiling; the ranges of
each dictionary's published regions are disjoint, lie inside its table and cover it; and a field
that is refused leaves the table it found. -/
theorem attestation_ceiling (settings : Settings Digest) (steps : List Step)
    {index : DocumentIndex Digest}
    (reached : DocumentIndex.new.run settings steps = some index) :
    (index.segments.map fun segment => segment.terms.p2Integrity.bytes).sum ≤
        p2IntegrityMaxBytes ∧
      (∀ segment ∈ index.segments,
        let digests := segment.terms.p2Integrity.digests
        let regions := publishedRegions (segment.terms.fields.entries.map Prod.snd)
        regions.Pairwise (fun region later =>
            region.digestStart + region.digestCount ≤ later.digestStart) ∧
          (∀ region ∈ regions, region.digestStart + region.digestCount ≤ digests.length) ∧
          ∀ i, i < digests.length → ∃ region ∈ regions,
            region.digestStart ≤ i ∧ i < region.digestStart + region.digestCount) ∧
      ∀ (diskEnabled : Bool) (fst : Fst) (channels : FieldChannels) (fieldOrdinal : Nat)
        (state : BuildState Digest),
        let finished := finishField settings.hash diskEnabled fst channels fieldOrdinal state
        finished.2.p2Integrity = none →
          finished.1.p2Integrity.digests = state.p2Integrity.digests ∧
            finished.1.p2Integrity.protectedFields = state.p2Integrity.protectedFields := by
  have under : UnderCeiling index.dictionaries :=
    DocumentIndex.run_rule (P := fun index => UnderCeiling index.dictionaries)
      (fun _ _ _ under _ stepped => DocumentIndex.step_underCeiling under stepped)
      ⟨Nat.zero_le _, by
        intro dictionary member
        cases List.mem_singleton.mp member
        exact emptyTerms_tiled⟩
      (DocumentIndex.meets_true _ steps) reached
  refine ⟨?_, ?_, ?_⟩
  · have total := under.total
    rwa [attestedBytes, DocumentIndex.dictionaries, List.map_map] at total
  · intro segment member
    have tiles := (under.tiled segment.terms (List.mem_map.mpr ⟨segment, member, rfl⟩)).tiles
    refine ⟨tiles.disjoint, ?_, ?_⟩
    · intro region published
      exact (tiles.inside region published).2
    · intro i inside
      exact tiles.covers i (Nat.zero_le i) inside
  · intro diskEnabled fst channels fieldOrdinal state finished refused
    rcases finishField_published settings.hash
      (show finishField settings.hash diskEnabled fst channels fieldOrdinal state =
        (finished.1, finished.2) from rfl) with ⟨_, same⟩ | ⟨⟨integrity, published⟩, _⟩
    · exact ⟨same.digests, same.protectedFields⟩
    · rw [refused] at published
      cases published

def twoSegmentRun : List Step :=
  [.addDocuments [sampleDocument 0 "rust"] .default true reliableFiles,
    .materializeTermsAndFinalizePostings reliableFiles,
    .addDocuments [sampleDocument 1 "lean"] .default true reliableFiles,
    .materializeTermsAndFinalizePostings reliableFiles]

theorem attestation_ceiling_two_segments :
    ∃ index, DocumentIndex.new.run (sampleSettings true) twoSegmentRun = some index ∧
      (index.segments.map fun segment => segment.terms.p2Integrity.bytes).sum ≤
        p2IntegrityMaxBytes := by
  have finished : (DocumentIndex.new.run (sampleSettings true) twoSegmentRun).isSome = true := by
    decide +kernel
  have reached := (Option.some_get finished).symm
  exact ⟨_, reached, (attestation_ceiling _ _ reached).1⟩

end Surch.Index
