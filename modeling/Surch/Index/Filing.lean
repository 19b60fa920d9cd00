import Surch.Index.Acceptance
import Surch.Postings.Merging

/-! What the dictionaries of an index hold: each segment serves the postings of documents in its own
range, through sealing and merging, as long as files can be read and no table overflows. -/
namespace Surch.Index
open Surch.Lib Surch.Postings

variable {Digest : Type} {settings : Settings Digest}

def AnalyzedDocument.additions (document : AnalyzedDocument) : List Addition :=
  document.postings.map fun posting =>
    ⟨posting.1, posting.2.1, document.docId, posting.2.2, document.docId_fits⟩

def Within (first last : Nat) (additions : List Addition) : Prop :=
  ∀ a ∈ additions, first ≤ a.docId ∧ a.docId < last

theorem Within.mono {first last last' : Nat} {additions : List Addition}
    (within : Within first last additions) (wider : last ≤ last') : Within first last' additions :=
  fun a member => ⟨(within a member).1, (within a member).2.trans_le wider⟩

theorem within_nil (first last : Nat) : Within first last [] := by
  intro a member
  cases member

theorem Within.append {first last : Nat} {additions more : List Addition}
    (within : Within first last additions) (others : Within first last more) :
    Within first last (additions ++ more) := by
  intro a member
  rcases List.mem_append.mp member with member | member
  · exact within a member
  · exact others a member

theorem addAll_append (builder : PostingsBuilder) (additions more : List Addition) :
    builder.addAll (additions ++ more) = (builder.addAll additions).addAll more :=
  List.foldl_append

theorem emptyTerms_served (hash : List UInt8 → Digest) :
    Served hash (PostingsBuilder.new.addAll []).invert (emptyTerms : TermDictionary Digest) where
  assembled :=
    { disk := rfl
      keys := rfl
      digests := Nat.two_pow_pos 32
      field := by
        intro name terms found
        simp [PostingsBuilder.addAll, PostingsBuilder.new, PostingsBuilder.invert] at found }
  fits := by
    intro name terms found
    simp [PostingsBuilder.addAll, PostingsBuilder.new, PostingsBuilder.invert] at found
  payloads := by
    intro disk
    cases disk
  intact := by
    intro disk
    cases disk

namespace DocumentIndex

section Conditions

variable (settings : Settings Digest)

def BuildFits (index : DocumentIndex Digest) (files : Files) : Prop :=
  Addressable settings.postingsDiskEnabled index.postingsBuilder.invert ∧
    (settings.postingsDiskEnabled = true →
      Readable (index.buildActiveTerms settings files).postingsSegment)

def MergeFits (index : DocumentIndex Digest) (start ending : Nat) (termsFile : Device) : Prop :=
  let sources := ((index.sealedSegments.drop start).take (ending - start)).map Segment.terms
  (∀ inverted ∈ mergedFields sources, Addressable settings.postingsDiskEnabled inverted) ∧
    (settings.postingsDiskEnabled = true →
      ∀ dictionary ∈ mergeTermDictionaries settings.hash termsFile sources
        settings.postingsDiskEnabled (index.p2IntegrityBudgetExcluding start ending),
        Readable dictionary.postingsSegment)

def MergesFit (files : Files) : Nat → DocumentIndex Digest → Prop
  | 0, _ => True
  | fuel + 1, index =>
    ∀ run ∈ index.findEligibleMergeRun settings.mergeFanin settings.mergeMaxDocs,
      index.MergeFits settings run.1 run.2 (files (2 * fuel + 2)) ∧
        ∀ merged ∈ index.mergeSegmentsRun settings run.1 run.2 (files (2 * fuel + 2))
          (files (2 * fuel + 3)), MergesFit files fuel merged

def SealFits (index : DocumentIndex Digest) (files : Files) : Prop :=
  (index.termsDirty = true → index.BuildFits settings files) ∧
    (settings.flushBudgetBytes.isSome = true → 2 ≤ settings.mergeFanin →
      MergesFit settings files (index.sealActive settings files).sealedSegments.length
        (index.sealActive settings files))

/- A batch that is refused changes nothing; one that is not has to be accepted whole. -/
def BatchFits (index : DocumentIndex Digest) (documents : List Document) (mapping : IndexMapping)
    (deferred : Bool) (files : Files) : Prop :=
  (∃ error, index.validate documents = .error error) ∨
    (∀ document ∈ documents,
      document.Visible settings.unicode mapping ∧ document.docId < 2 ^ 32 - 1) ∧
      (deferred = false → (index.mergeAll
        (documents.map (analyzeDocument settings.unicode mapping))).2.BuildFits settings files)

def StepFits (index : DocumentIndex Digest) : Step → Prop
  | .addDocuments documents mapping deferred files =>
    index.BatchFits settings documents mapping deferred files
  | .materializeTerms files => index.termsDirty = true → index.BuildFits settings files
  | .maybeFlushByBudget memoryBytes files =>
    (∃ budget, settings.flushBudgetBytes = some budget ∧ budget ≤ memoryBytes) →
      index.SealFits settings files
  | .materializeTermsAndFinalizePostings files => index.SealFits settings files
  | .clear => True

end Conditions

/- What each segment holds, and what the builder has pending. `shown` is what the dictionary of the
active segment was built from: the pending postings, unless the builder was emptied since. -/
structure Filed (settings : Settings Digest) (index : DocumentIndex Digest)
    (filing : List (Segment Digest × List Addition)) (pending : List Addition) : Prop where
  ranged : index.Ranged
  segments : index.sealedSegments = filing.map Prod.fst
  sealed : ∀ entry ∈ filing,
    Served settings.hash (PostingsBuilder.new.addAll entry.2).invert entry.1.terms ∧
      Within entry.1.docBase (entry.1.docBase + entry.1.docCount) entry.2
  builder : index.postingsBuilder = PostingsBuilder.new.addAll pending
  inRange : Within index.active.docBase index.nextDocIdHint pending
  shown : index.termsDirty = false → ∃ shown,
    Served settings.hash (PostingsBuilder.new.addAll shown).invert index.active.terms ∧
      Within index.active.docBase index.nextDocIdHint shown ∧
      (settings.flushBudgetBytes.isSome = true → shown = pending)

theorem new_filed : (new : DocumentIndex Digest).Filed settings [] [] where
  ranged := new_ranged
  segments := rfl
  sealed := by simp
  builder := rfl
  inRange := within_nil _ _
  shown _ := ⟨[], emptyTerms_served _, within_nil _ _, fun _ => rfl⟩

def batchAdditions (settings : Settings Digest) (index : DocumentIndex Digest)
    (documents : List Document) (mapping : IndexMapping) : List Addition :=
  match index.validate documents with
  | .error _ => []
  | .ok () => documents.flatMap fun document =>
    (analyzeDocument settings.unicode mapping document).additions

theorem BuildFits.served {index : DocumentIndex Digest} {files : Files}
    (fits : index.BuildFits settings files) {pending : List Addition}
    (builder : index.postingsBuilder = PostingsBuilder.new.addAll pending) :
    Served settings.hash (PostingsBuilder.new.addAll pending).invert
      (index.buildActiveTerms settings files) := by
  obtain ⟨addressable, readable⟩ := fits
  rw [builder] at addressable
  rw [buildActiveTerms, builder] at readable ⊢
  exact Serves.served ⟨buildWithLimit_assembled settings.hash _ _ _ _, addressable.fits,
    addressable.payload, readable⟩

section Adding

variable {index next : DocumentIndex Digest} {filing : List (Segment Digest × List Addition)}
  {pending : List Addition}

theorem recordPostings_additions {docId : Nat} (fits : docId < 2 ^ 32)
    {postings : List (String × String × List Nat)} {builder after : PostingsBuilder}
    (recorded : recordPostings docId builder postings = (.ok (), after)) :
    after = builder.addAll
      (postings.map fun posting => ⟨posting.1, posting.2.1, docId, posting.2.2, fits⟩) := by
  induction postings generalizing builder with
  | nil =>
    cases recorded
    rfl
  | cons posting rest ih =>
    obtain ⟨field, term, positions⟩ := posting
    rw [recordPostings] at recorded
    split at recorded
    · rename_i pushed added
      rw [ih recorded, List.map_cons, PostingsBuilder.addAll, PostingsBuilder.addAll, List.foldl_cons,
        added]
      rfl
    · cases recorded

theorem mergeAll_additions {documents : List AnalyzedDocument}
    (merged : index.mergeAll documents = (.ok (), next)) :
    next.postingsBuilder =
      index.postingsBuilder.addAll (documents.flatMap AnalyzedDocument.additions) := by
  induction documents generalizing index with
  | nil =>
    cases merged
    rfl
  | cons document rest ih =>
    rw [mergeAll] at merged
    split at merged
    · cases merged
    · rename_i middle first
      obtain ⟨builder, recorded, rfl⟩ := mergeAnalyzed_ok first
      have pushed := recordPostings_additions document.docId_fits recorded
      rw [ih merged, List.flatMap_cons, addAll_append]
      exact congrArg (fun b : PostingsBuilder => b.addAll _) pushed

theorem mergeAll_hint {documents : List AnalyzedDocument}
    (merged : index.mergeAll documents = (.ok (), next)) :
    index.nextDocIdHint ≤ next.nextDocIdHint ∧
      ∀ document ∈ documents, document.docId < 2 ^ 32 - 1 →
        document.docId < next.nextDocIdHint := by
  induction documents generalizing index with
  | nil =>
    cases merged
    exact ⟨le_rfl, by simp⟩
  | cons document rest ih =>
    rw [mergeAll] at merged
    split at merged
    · cases merged
    · rename_i middle first
      obtain ⟨builder, recorded, rfl⟩ := mergeAnalyzed_ok first
      obtain ⟨grown, inside⟩ := ih merged
      have step : max index.nextDocIdHint (min (document.docId + 1) (2 ^ 32 - 1)) ≤
          next.nextDocIdHint := grown
      refine ⟨by omega, List.forall_mem_cons.mpr ⟨fun small => by omega, inside⟩⟩

theorem Filed.of_kept (filed : index.Filed settings filing pending) (ranged : next.Ranged)
    (kept : index.Kept next) {more : List Addition}
    (builder : next.postingsBuilder = index.postingsBuilder.addAll more)
    (inRange : Within index.active.docBase next.nextDocIdHint more)
    (hint : index.nextDocIdHint ≤ next.nextDocIdHint) (dirty : Bool) (terms : TermDictionary Digest)
    (shown : dirty = false →
      Served settings.hash (PostingsBuilder.new.addAll (pending ++ more)).invert terms) :
    Filed settings
      { next with active := { next.active with terms }, termsDirty := dirty } filing
      (pending ++ more) := by
  have within : Within next.active.docBase next.nextDocIdHint (pending ++ more) := by
    rw [kept.docBase]
    exact (filed.inRange.mono hint).append inRange
  have unmoved : Unmoved next
      { next with active := { next.active with terms }, termsDirty := dirty } :=
    ranged.of_same _ rfl rfl rfl rfl
  refine ⟨unmoved.ranged, ?_, filed.sealed, ?_, within, ?_⟩
  · dsimp only
    rw [kept.sealedSegments]
    exact filed.segments
  · dsimp only
    rw [builder, filed.builder, addAll_append]
  · intro clean
    exact ⟨pending ++ more, shown clean, within, fun _ => rfl⟩

/-- The postings of an accepted batch are pending, and shown unless it is deferred. -/
theorem addDocuments_filed (filed : index.Filed settings filing pending)
    {documents : List Document} {mapping : IndexMapping} {deferred : Bool} {files : Files}
    (fits : index.BatchFits settings documents mapping deferred files) :
    (index.addDocuments settings documents mapping deferred files).2.Filed settings filing
      (pending ++ batchAdditions settings index documents mapping) := by
  unfold addDocuments batchAdditions
  cases valid : index.validate documents with
  | error error =>
    rw [List.append_nil]
    exact filed
  | ok _ =>
    rcases fits with ⟨error, refused⟩ | ⟨visible, builds⟩
    · rw [valid] at refused
      cases refused
    have checks := (validateFrom_ok_iff [] documents).mp valid
    have low : ∀ document ∈ documents.map (analyzeDocument settings.unicode mapping),
        index.active.docBase ≤ document.docId := by
      intro document member
      obtain ⟨raw, inside, rfl⟩ := List.mem_map.mp member
      rw [analyzeDocument_docId]
      exact (checks.1 raw inside).1
    have high : ∀ document ∈ documents.map (analyzeDocument settings.unicode mapping),
        document.docId < 2 ^ 32 - 1 := by
      intro document member
      obtain ⟨raw, inside, rfl⟩ := List.mem_map.mp member
      rw [analyzeDocument_docId]
      exact (visible raw inside).2
    have named : ∀ document ∈ documents.map (analyzeDocument settings.unicode mapping),
        ∀ posting ∈ document.postings, isBlank posting.1 = false ∧ isBlank posting.2.1 = false := by
      intro document member posting found
      obtain ⟨raw, inside, rfl⟩ := List.mem_map.mp member
      exact ⟨analyzeDocument_named settings.unicode mapping (checks.1 raw inside).2.2.2 posting found,
        (visible raw inside).1.2 posting found⟩
    obtain ⟨next, merged⟩ := (mergeAll_ok_iff _).mpr named
    have kept := mergeAll_kept index (documents.map (analyzeDocument settings.unicode mapping))
    rw [merged] at kept builds
    have ranged := (mergeAll_ranged filed.ranged low high merged).1
    obtain ⟨hint, inside⟩ := mergeAll_hint merged
    have builder := mergeAll_additions merged
    rw [List.flatMap_map] at builder
    have within : Within index.active.docBase next.nextDocIdHint (documents.flatMap fun document =>
        (analyzeDocument settings.unicode mapping document).additions) := by
      intro a member
      obtain ⟨document, listed, member⟩ := List.mem_flatMap.mp member
      obtain ⟨posting, _, rfl⟩ := List.mem_map.mp member
      have analyzed := List.mem_map_of_mem (f := analyzeDocument settings.unicode mapping) listed
      exact ⟨low _ analyzed, inside _ analyzed (high _ analyzed)⟩
    dsimp only
    rw [merged]
    cases deferred with
    | true =>
      exact filed.of_kept ranged kept builder within hint true next.active.terms (by simp)
    | false =>
      refine filed.of_kept ranged kept builder within hint false
        (next.buildActiveTerms settings files) fun _ => (builds rfl).served ?_
      rw [builder, filed.builder, addAll_append]

end Adding

section Sealing

variable {index : DocumentIndex Digest} {filing : List (Segment Digest × List Addition)}
  {pending : List Addition} {files : Files}

theorem materializeTerms_filed (filed : index.Filed settings filing pending)
    (fits : index.termsDirty = true → index.BuildFits settings files) :
    (index.materializeTerms settings files).Filed settings filing pending := by
  unfold materializeTerms
  split
  · exact filed
  · rename_i dirty
    simp only [Bool.not_eq_true', Bool.not_eq_false] at dirty
    have unmoved := @materializeTerms_ranged _ settings _ filed.ranged files
    simp only [materializeTerms, dirty, Bool.not_true, Bool.false_eq_true, if_false] at unmoved
    refine ⟨unmoved.ranged, filed.segments, filed.sealed, filed.builder, filed.inRange, fun _ => ?_⟩
    exact ⟨pending, (fits dirty).served filed.builder, filed.inRange, fun _ => rfl⟩

theorem materializeActiveSegmentTerms_terms (index : DocumentIndex Digest) (files : Files) :
    (index.materializeActiveSegmentTerms settings files).active.terms =
      if index.termsDirty then index.buildActiveTerms settings files else index.active.terms := rfl

/-- Whatever the builder had pending is in the dictionary when the builder is emptied. -/
theorem materializeActiveSegmentTerms_shown (filed : index.Filed settings filing pending)
    (fits : index.termsDirty = true → index.BuildFits settings files) :
    ∃ shown, Served settings.hash (PostingsBuilder.new.addAll shown).invert
        (index.materializeActiveSegmentTerms settings files).active.terms ∧
      Within index.active.docBase index.nextDocIdHint shown ∧
      (settings.flushBudgetBytes.isSome = true → shown = pending) := by
  rw [materializeActiveSegmentTerms_terms]
  cases dirty : index.termsDirty with
  | true =>
    rw [if_pos rfl]
    exact ⟨pending, (fits dirty).served filed.builder, filed.inRange, fun _ => rfl⟩
  | false =>
    rw [if_neg (by decide)]
    exact filed.shown dirty

theorem materializeActiveSegmentTerms_filed (filed : index.Filed settings filing pending)
    (fits : index.termsDirty = true → index.BuildFits settings files)
    (unbudgeted : settings.flushBudgetBytes = none) :
    (index.materializeActiveSegmentTerms settings files).Filed settings filing [] := by
  have unmoved := @materializeActiveSegmentTerms_ranged _ settings _ filed.ranged files
  refine ⟨unmoved.ranged, filed.segments, filed.sealed, rfl, within_nil _ _, fun _ => ?_⟩
  obtain ⟨shown, served, inside, _⟩ := materializeActiveSegmentTerms_shown filed fits
  refine ⟨shown, served, inside, ?_⟩
  rw [unbudgeted]
  simp

theorem sealActive_filed (filed : index.Filed settings filing pending)
    (fits : index.termsDirty = true → index.BuildFits settings files)
    (budgeted : settings.flushBudgetBytes.isSome = true) :
    ∃ filing', (index.sealActive settings files).Filed settings filing' [] ∧
      (filing'.map Prod.snd).flatten = (filing.map Prod.snd).flatten ++ pending := by
  obtain ⟨shown, served, inside, same⟩ := materializeActiveSegmentTerms_shown filed fits
  obtain rfl := same budgeted
  have sealed := @sealActive_ranged _ settings _ filed.ranged files
  unfold sealActive startNewActiveSegmentIfNonempty at *
  split at sealed
  · rename_i nothing
    have none_pending : shown = [] := by
      refine List.eq_nil_iff_forall_not_mem.mpr fun a member => ?_
      have bounds := inside a member
      have low : index.nextDocIdHint ≤ index.active.docBase := nothing
      omega
    rw [if_pos nothing]
    subst none_pending
    refine ⟨filing, ⟨sealed.ranged, filed.segments, filed.sealed, rfl, within_nil _ _, fun _ => ?_⟩,
      (List.append_nil _).symm⟩
    exact ⟨[], served, within_nil _ _, fun _ => rfl⟩
  · rename_i some_documents
    rw [if_neg some_documents]
    let materialized := index.materializeActiveSegmentTerms settings files
    refine ⟨filing ++ [({ materialized.active with
      docCount := materialized.nextDocIdHint - materialized.active.docBase }, shown)],
      ⟨sealed.ranged, ?_, ?_, rfl, within_nil _ _, fun _ => ?_⟩, ?_⟩
    · dsimp only
      rw [List.map_append, ← filed.segments]
      rfl
    · intro entry member
      rcases List.mem_append.mp member with member | member
      · exact filed.sealed entry member
      · obtain rfl := List.mem_singleton.mp member
        refine ⟨served, inside.mono ?_⟩
        have hint := filed.ranged.hint
        exact le_of_eq (Nat.add_sub_of_le hint).symm
    · exact ⟨[], emptyTerms_served _, within_nil _ _, fun _ => rfl⟩
    · rw [List.map_append, List.flatten_append]
      simp

end Sealing

section Merging

variable {index merged : DocumentIndex Digest} {filing : List (Segment Digest × List Addition)}
  {pending : List Addition}

theorem ascending_of_tiles {first last : Nat} (filing : List (Segment Digest × List Addition))
    (tiles : Tiles Segment.docBase Segment.docCount first last (filing.map Prod.fst))
    (within : ∀ entry ∈ filing,
      Within entry.1.docBase (entry.1.docBase + entry.1.docCount) entry.2) :
    Ascending (filing.map Prod.snd) := by
  have disjoint := tiles.disjoint
  rw [List.pairwise_map] at disjoint
  rw [Ascending, List.pairwise_map]
  refine disjoint.imp_of_mem ?_
  intro entry later member member' apart a inside b inside'
  have below := (within entry member a inside).2
  have above := (within later member' b inside').1
  omega

theorem mergedSegment_terms {run : List (Segment Digest)} {budget : Nat}
    {termsFile subfieldFile : Device} {segment : Segment Digest}
    (built : mergedSegment settings run budget termsFile subfieldFile = some segment) :
    mergeTermDictionaries settings.hash termsFile (run.map Segment.terms)
      settings.postingsDiskEnabled budget = some segment.terms := by
  simp only [mergedSegment, Option.bind_eq_bind, Option.bind_eq_some_iff, Option.pure_def] at built
  obtain ⟨terms, read, result⟩ := built
  cases result
  exact read

/-- Merging segments whose documents ascend gives one that serves the postings of all. -/
theorem mergeTerms_ascending {run : List (Segment Digest × List Addition)}
    (ascending : Ascending (run.map Prod.snd))
    (served : ∀ entry ∈ run,
      Served settings.hash (PostingsBuilder.new.addAll entry.2).invert entry.1.terms)
    {budget : Nat} {termsFile : Device} {terms : TermDictionary Digest}
    (addressable : ∀ inverted ∈ mergedFields ((run.map Prod.fst).map Segment.terms),
      Addressable settings.postingsDiskEnabled inverted)
    (readable : settings.postingsDiskEnabled = true → Readable terms.postingsSegment)
    (produced : mergeTermDictionaries settings.hash termsFile
      ((run.map Prod.fst).map Segment.terms) settings.postingsDiskEnabled budget = some terms) :
    Served settings.hash (PostingsBuilder.new.addAll (run.map Prod.snd).flatten).invert terms := by
  let sources := run.map fun entry => (entry.2, entry.1.terms)
  have additions : sources.map Prod.fst = run.map Prod.snd := by
    rw [List.map_map]
    rfl
  have dictionaries : sources.map Prod.snd = (run.map Prod.fst).map Segment.terms := by
    rw [List.map_map, List.map_map]
    rfl
  have each : ∀ s ∈ sources, Served settings.hash (PostingsBuilder.new.addAll s.1).invert s.2 := by
    intro s member
    obtain ⟨entry, inside, rfl⟩ := List.mem_map.mp member
    exact served entry inside
  rw [← additions] at ascending ⊢
  rw [← dictionaries] at addressable produced
  have fields := mergedFields_ascending sources each ascending
  obtain ⟨outcome, again, assembled⟩ := merge_assembled settings.hash termsFile
    (sources.map Prod.snd) settings.postingsDiskEnabled budget fields
  rw [produced] at again
  cases again
  have fits := addressable _ fields
  exact Serves.served ⟨assembled, fits.fits, fits.payload, readable⟩

theorem mergeTerms_served {run : List (Segment Digest × List Addition)} {first last : Nat}
    (tiles : Tiles Segment.docBase Segment.docCount first last (run.map Prod.fst))
    (served : ∀ entry ∈ run,
      Served settings.hash (PostingsBuilder.new.addAll entry.2).invert entry.1.terms ∧
        Within entry.1.docBase (entry.1.docBase + entry.1.docCount) entry.2)
    {budget : Nat} {termsFile : Device} {terms : TermDictionary Digest}
    (addressable : ∀ inverted ∈ mergedFields ((run.map Prod.fst).map Segment.terms),
      Addressable settings.postingsDiskEnabled inverted)
    (readable : settings.postingsDiskEnabled = true → Readable terms.postingsSegment)
    (produced : mergeTermDictionaries settings.hash termsFile
      ((run.map Prod.fst).map Segment.terms) settings.postingsDiskEnabled budget = some terms) :
    Served settings.hash (PostingsBuilder.new.addAll (run.map Prod.snd).flatten).invert terms :=
  mergeTerms_ascending (ascending_of_tiles run tiles fun entry member => (served entry member).2)
    (fun entry member => (served entry member).1) addressable readable produced

theorem mergeSegmentsRun_filed (filed : index.Filed settings filing pending) {start ending : Nat}
    {termsFile subfieldFile : Device} (proper : start < ending)
    (inside : ending ≤ index.sealedSegments.length)
    (fits : index.MergeFits settings start ending termsFile)
    (produced : index.mergeSegmentsRun settings start ending termsFile subfieldFile = some merged) :
    ∃ filing', merged.Filed settings filing' pending ∧
      (filing'.map Prod.snd).flatten = (filing.map Prod.snd).flatten := by
  have unmoved := mergeSegmentsRun_ranged filed.ranged proper inside produced
  obtain ⟨before, run, after, segment, cut, built, rfl⟩ :=
    mergeSegmentsRun_spec proper inside produced
  have split := cut.sealed
  rw [filed.segments, List.map_eq_append_iff] at split
  obtain ⟨front, rear, filing_eq, front_eq, rfl⟩ := split
  rw [List.map_eq_append_iff] at front_eq
  obtain ⟨head, middle, front_eq, rfl, rfl⟩ := front_eq
  subst front_eq filing_eq
  have tiles := filed.ranged.tiles
  rw [filed.segments, List.map_append, List.map_append] at tiles
  obtain ⟨high, tiles, tiles_rear⟩ := tiles_append.mp tiles
  obtain ⟨low, _, tiles_run⟩ := tiles_append.mp tiles
  have bounded := filed.ranged.bounded
  have hint := filed.ranged.hint
  have below := tiles_rear.le
  have served : ∀ entry ∈ middle,
      Served settings.hash (PostingsBuilder.new.addAll entry.2).invert entry.1.terms ∧
        Within entry.1.docBase (entry.1.docBase + entry.1.docCount) entry.2 := by
    intro entry member
    exact filed.sealed entry (List.mem_append_left _ (List.mem_append_right _ member))
  obtain ⟨addressable, readable⟩ := fits
  rw [← cut.run_eq] at addressable readable
  have terms := mergedSegment_terms built
  have together := mergeTerms_served tiles_run served addressable
    (fun disk => readable disk _ terms) terms
  refine ⟨head ++ [(segment, (middle.map Prod.snd).flatten)] ++ rear,
    ⟨unmoved.ranged, ?_, ?_, filed.builder, filed.inRange, filed.shown⟩, ?_⟩
  · simp
  · intro entry member
    rcases List.mem_append.mp member with member | member
    · rcases List.mem_append.mp member with member | member
      · exact filed.sealed entry (List.mem_append_left _ (List.mem_append_left _ member))
      · obtain rfl := List.mem_singleton.mp member
        refine ⟨together, ?_⟩
        obtain ⟨first, size⟩ := mergedSegment_range tiles_run (by omega) cut.nonempty built
        intro a listed
        obtain ⟨group, grouped, listed⟩ := List.mem_flatten.mp listed
        obtain ⟨entry, member, rfl⟩ := List.mem_map.mp grouped
        have bounds := (served entry member).2 a listed
        have range := tiles_run.inside entry.1 (List.mem_map_of_mem member)
        rw [first, size]
        omega
    · exact filed.sealed entry (List.mem_append_right _ member)
  · simp

theorem mergeLoop_filed {files : Files} (fanin : 2 ≤ settings.mergeFanin) (fuel : Nat)
    (filed : index.Filed settings filing pending)
    (fits : MergesFit settings files fuel index)
    (finished : index.mergeLoop settings files fuel = some merged) :
    ∃ filing', merged.Filed settings filing' pending ∧
      (filing'.map Prod.snd).flatten = (filing.map Prod.snd).flatten := by
  induction fuel generalizing index filing with
  | zero =>
    cases finished
    exact ⟨filing, filed, rfl⟩
  | succ fuel ih =>
    rw [mergeLoop] at finished
    split at finished
    · cases finished
      exact ⟨filing, filed, rfl⟩
    · rename_i start ending eligible
      obtain ⟨middle, produced, finished⟩ := Option.bind_eq_some_iff.mp finished
      obtain ⟨here, later⟩ := fits (start, ending) eligible
      obtain ⟨proper, inside⟩ := findEligibleMergeRun_spec eligible
      obtain ⟨filing', filed', same⟩ := mergeSegmentsRun_filed filed (by omega) inside here produced
      obtain ⟨filing'', filed'', same'⟩ := ih filed' (later middle produced) finished
      exact ⟨filing'', filed'', same'.trans same⟩

theorem sealing_filed {files : Files} (filed : index.Filed settings filing pending)
    (fits : index.SealFits settings files) (budgeted : settings.flushBudgetBytes.isSome = true)
    (finished : (index.sealActive settings files).maybeMergeAfterSeal settings files = some merged) :
    ∃ filing', merged.Filed settings filing' [] ∧
      (filing'.map Prod.snd).flatten = (filing.map Prod.snd).flatten ++ pending := by
  obtain ⟨filing', filed', same⟩ := sealActive_filed filed fits.1 budgeted
  unfold maybeMergeAfterSeal at finished
  split at finished
  · cases finished
    exact ⟨filing', filed', same⟩
  · rename_i fanin
    obtain ⟨filing'', filed'', same'⟩ := mergeLoop_filed (by omega) _ filed'
      (fits.2 budgeted (by omega)) finished
    exact ⟨filing'', filed'', same'.trans same⟩

end Merging

section Runs

variable {index next : DocumentIndex Digest} {filing : List (Segment Digest × List Addition)}
  {pending : List Addition}

def historyAfter (settings : Settings Digest) (index : DocumentIndex Digest)
    (history : List Addition) : Step → List Addition
  | .addDocuments documents mapping _ _ =>
    history ++ batchAdditions settings index documents mapping
  | .clear => []
  | _ => history

theorem step_filed (filed : index.Filed settings filing pending) (action : Step)
    (fits : index.StepFits settings action) (stepped : index.step settings action = some next) :
    ∃ filing' pending', next.Filed settings filing' pending' ∧
      (settings.flushBudgetBytes.isSome = true →
        (filing'.map Prod.snd).flatten ++ pending' =
          historyAfter settings index ((filing.map Prod.snd).flatten ++ pending) action) := by
  cases action with
  | addDocuments documents mapping deferred files =>
    cases stepped
    exact ⟨filing, _, addDocuments_filed filed fits, fun _ => (List.append_assoc _ _ _).symm⟩
  | materializeTerms files =>
    cases stepped
    exact ⟨filing, pending, materializeTerms_filed filed fits, fun _ => rfl⟩
  | maybeFlushByBudget memoryBytes files =>
    simp only [step, maybeFlushByBudget] at stepped
    split at stepped
    · cases stepped
      exact ⟨filing, pending, filed, fun _ => rfl⟩
    · rename_i budget budgeted
      split at stepped
      · cases stepped
        exact ⟨filing, pending, filed, fun _ => rfl⟩
      · rename_i due
        obtain ⟨filing', filed', same⟩ := sealing_filed filed (fits ⟨budget, budgeted, by omega⟩)
          (by rw [budgeted]; rfl) stepped
        exact ⟨filing', [], filed', fun _ => (List.append_nil _).trans same⟩
  | materializeTermsAndFinalizePostings files =>
    simp only [step, materializeTermsAndFinalizePostings] at stepped
    split at stepped
    · rename_i budgeted
      obtain ⟨filing', filed', same⟩ := sealing_filed filed fits budgeted stepped
      exact ⟨filing', [], filed', fun _ => (List.append_nil _).trans same⟩
    · rename_i unbudgeted
      cases stepped
      rw [Option.not_isSome_iff_eq_none] at unbudgeted
      refine ⟨filing, [], materializeActiveSegmentTerms_filed filed fits.1 unbudgeted, ?_⟩
      rw [unbudgeted]
      simp
  | clear =>
    cases stepped
    rw [clear_eq]
    exact ⟨[], [], new_filed, fun _ => rfl⟩

/-- Every run whose steps fit keeps each posting with the segment of its document. -/
theorem run_filed {steps : List Step} (filed : ∃ filing pending, index.Filed settings filing pending)
    (fits : Meets settings (StepFits settings) index steps)
    (finished : index.run settings steps = some next) :
    ∃ filing pending, next.Filed settings filing pending := by
  refine run_rule (P := fun index => ∃ filing pending, index.Filed settings filing pending) ?_ filed
    fits finished
  rintro index next action ⟨filing, pending, filed⟩ meets stepped
  obtain ⟨filing', pending', filed', _⟩ := step_filed filed action meets stepped
  exact ⟨filing', pending', filed'⟩

end Runs

end DocumentIndex

end Surch.Index
