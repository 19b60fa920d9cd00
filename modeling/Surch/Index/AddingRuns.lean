import Surch.Index.Accounts

/-! The dictionaries of runs that only add documents serve postings of the documents their segments
have, as long as the dictionaries that are built can be read. -/
namespace Surch.Index
open Surch.Lib Surch.Codec Surch.Postings

variable {Digest : Type} {settings : Settings Digest}

def AdditionsOf (documents : List AnalyzedDocument) (additions : List Addition) : Prop :=
  ∀ a ∈ additions, ∃ document ∈ documents, a ∈ document.additions

theorem AdditionsOf.mono {documents larger : List AnalyzedDocument} {additions : List Addition}
    (owned : AdditionsOf documents additions) (subset : documents ⊆ larger) :
    AdditionsOf larger additions := by
  intro a member
  obtain ⟨document, inside, has⟩ := owned a member
  exact ⟨document, subset inside, has⟩

theorem AdditionsOf.append {documents : List AnalyzedDocument} {additions more : List Addition}
    (owned : AdditionsOf documents additions) (owned' : AdditionsOf documents more) :
    AdditionsOf documents (additions ++ more) := by
  intro a member
  rcases List.mem_append.mp member with member | member
  · exact owned a member
  · exact owned' a member

theorem additionsOf_nil (documents : List AnalyzedDocument) : AdditionsOf documents [] :=
  fun _ member => nomatch member

def Segment.Indexes (settings : Settings Digest) (segment : Segment Digest)
    (documents : List AnalyzedDocument) : Prop :=
  ∃ additions, Served settings.hash (PostingsBuilder.new.addAll additions).invert segment.terms ∧
    AdditionsOf documents additions

namespace DocumentIndex

structure Posts (settings : Settings Digest) (index : DocumentIndex Digest)
    (filing : List (Segment Digest × List AnalyzedDocument)) (recent : List AnalyzedDocument) :
    Prop where
  sealed : ∀ entry ∈ filing, entry.1.Indexes settings entry.2
  active : index.active.Indexes settings recent
  builder : ∃ pending, index.postingsBuilder = PostingsBuilder.new.addAll pending ∧
    AdditionsOf recent pending

variable {index next : DocumentIndex Digest} {mapping : IndexMapping}
  {filing : List (Segment Digest × List AnalyzedDocument)} {recent : List AnalyzedDocument}

theorem new_posts : (new : DocumentIndex Digest).Posts settings [] [] where
  sealed _ member := nomatch member
  active := ⟨[], emptyTerms_served _, additionsOf_nil _⟩
  builder := ⟨[], rfl, additionsOf_nil _⟩

theorem Posts.built (posts : index.Posts settings filing recent) {files : Files}
    (fits : index.BuildFits settings files) (segment : Segment Digest) :
    ({ segment with terms := index.buildActiveTerms settings files }).Indexes settings recent := by
  obtain ⟨pending, builder, owned⟩ := posts.builder
  exact ⟨pending, fits.served builder, owned⟩

theorem addDocuments_posts (posts : index.Posts settings filing recent) {documents : List Document}
    {deferred : Bool} {files : Files}
    (fits : deferred = false → (index.mergeAll
      (documents.map (analyzeDocument settings.unicode mapping))).2.BuildFits settings files)
    (added : index.addDocuments settings documents mapping deferred files = (.ok (), next)) :
    next.Posts settings filing
      (recent ++ documents.map (analyzeDocument settings.unicode mapping)) := by
  unfold addDocuments at added
  split at added
  · cases added
  · split at added
    · cases added
    · rename_i middle merged
      have kept := mergeAll_kept index (documents.map (analyzeDocument settings.unicode mapping))
      rw [merged] at kept fits
      have builder := mergeAll_additions merged
      have posts' : middle.Posts settings filing
          (recent ++ documents.map (analyzeDocument settings.unicode mapping)) := by
        obtain ⟨shown, served, shown_owned⟩ := posts.active
        obtain ⟨pending, before, pending_owned⟩ := posts.builder
        refine ⟨posts.sealed, ⟨shown, ?_, shown_owned.mono (List.subset_append_left _ _)⟩,
          ⟨pending ++ (documents.map (analyzeDocument settings.unicode mapping)).flatMap
            AnalyzedDocument.additions, ?_, ?_⟩⟩
        · rw [kept.terms]
          exact served
        · rw [builder, before, addAll_append]
        · refine (pending_owned.mono (List.subset_append_left _ _)).append fun a member => ?_
          obtain ⟨document, inside, has⟩ := List.mem_flatMap.mp member
          exact ⟨document, List.mem_append_right _ inside, has⟩
      split at added
      · cases added
        exact ⟨posts'.sealed, posts'.active, posts'.builder⟩
      · rename_i immediate
        cases added
        exact ⟨posts'.sealed, posts'.built (fits (by simpa using immediate)) _, posts'.builder⟩

theorem materializeTerms_posts (posts : index.Posts settings filing recent) {files : Files}
    (fits : index.termsDirty = true → index.BuildFits settings files) :
    (index.materializeTerms settings files).Posts settings filing recent := by
  unfold materializeTerms
  split
  · exact posts
  · rename_i dirty
    rw [Bool.not_eq_true', Bool.not_eq_false] at dirty
    exact ⟨posts.sealed, posts.built (fits dirty) _, posts.builder⟩

theorem materializeActiveSegmentTerms_posts (posts : index.Posts settings filing recent)
    {files : Files} (fits : index.termsDirty = true → index.BuildFits settings files) :
    (index.materializeActiveSegmentTerms settings files).Posts settings filing recent := by
  refine ⟨posts.sealed, ?_, ⟨[], rfl, additionsOf_nil _⟩⟩
  rw [Segment.Indexes, materializeActiveSegmentTerms_terms]
  split
  · rename_i dirty
    exact posts.built (fits dirty) index.active
  · exact posts.active

theorem sealActive_accounts (accounts : index.Accounts mapping filing recent) (files : Files) :
    ∃ filing' recent', (index.sealActive settings files).Accounts mapping filing' recent' ∧
      filing'.flatMap Prod.snd ++ recent' = filing.flatMap Prod.snd ++ recent ∧
      (index.Posts settings filing recent →
        (index.termsDirty = true → index.BuildFits settings files) →
        (index.sealActive settings files).Posts settings filing' recent') := by
  have materialized := @materializeActiveSegmentTerms_accounts _ settings _ _ _ _ accounts files
  rw [sealActive]
  rcases startNewActiveSegment_accounts materialized with ⟨-, same⟩ | filed
  · rw [same]
    exact ⟨filing, recent, materialized, rfl,
      fun posts fits => materializeActiveSegmentTerms_posts posts fits⟩
  · refine ⟨_, [], filed, by simp, fun posts fits => ?_⟩
    have posts' := materializeActiveSegmentTerms_posts posts fits
    have emptied : ∀ old : DocumentIndex Digest, old.postingsBuilder = .new →
        old.startNewActiveSegmentIfNonempty.postingsBuilder = .new := by
      intro old empty
      unfold startNewActiveSegmentIfNonempty
      split <;> exact empty
    refine ⟨?_, ?_, ⟨[], emptied _ rfl, additionsOf_nil _⟩⟩
    · intro entry member
      rcases List.mem_append.mp member with member | member
      · exact posts.sealed entry member
      · rw [List.mem_singleton.mp member]
        exact posts'.active
    · unfold startNewActiveSegmentIfNonempty at filed ⊢
      split at filed
      · rename_i nothing
        have listed := congrArg List.length filed.segments
        have before := congrArg List.length materialized.segments
        rw [List.length_map] at listed before
        simp only [List.length_append, List.length_singleton] at listed
        omega
      · rename_i some_documents
        rw [if_neg some_documents]
        exact ⟨[], emptyTerms_served _, additionsOf_nil _⟩

section Merging

theorem documents_ascend {run : List (Segment Digest × List AnalyzedDocument)} {first last : Nat}
    (tiles : Tiles Segment.docBase Segment.docCount first last (run.map Prod.fst))
    (placed : ∀ entry ∈ run,
      PlacedIn entry.1.docBase (entry.1.docBase + entry.1.docCount) entry.2)
    (nonempty : ∀ entry ∈ run, 0 < entry.1.docCount) (bounded : last < 2 ^ 32) :
    run.Pairwise fun entry later => ∀ document ∈ entry.2, ∀ other ∈ later.2,
      document.docId < other.docId := by
  have disjoint := tiles.disjoint
  rw [List.pairwise_map] at disjoint
  refine disjoint.imp_of_mem fun {entry later} member member' apart document inside other inside' => ?_
  have low := (placed entry member document inside).2
  have high := (placed later member' other inside').1
  have positive := nonempty later member'
  have range := (tiles.inside later.1 (List.mem_map_of_mem member')).2
  omega

/-- Neighbours that serve postings of their documents are merged into a segment that does. -/
theorem mergedSegment_indexes {run : List (Segment Digest × List AnalyzedDocument)}
    (apart : run.Pairwise fun entry later => ∀ document ∈ entry.2, ∀ other ∈ later.2,
      document.docId < other.docId)
    (indexes : ∀ entry ∈ run, entry.1.Indexes settings entry.2) {segment : Segment Digest}
    {budget : Nat} {termsFile subfieldFile : Device}
    (addressable : ∀ inverted ∈ mergedFields ((run.map Prod.fst).map Segment.terms),
      Addressable settings.postingsDiskEnabled inverted)
    (readable : settings.postingsDiskEnabled = true →
      ∀ dictionary ∈ mergeTermDictionaries settings.hash termsFile
        ((run.map Prod.fst).map Segment.terms) settings.postingsDiskEnabled budget,
        Readable dictionary.postingsSegment)
    (built : mergedSegment settings (run.map Prod.fst) budget termsFile subfieldFile =
      some segment) : segment.Indexes settings (run.flatMap Prod.snd) := by
  choose! additions served owned using indexes
  have terms := mergedSegment_terms built
  have segments : (run.map fun entry => (entry.1, additions entry)).map Prod.fst =
      run.map Prod.fst := by
    rw [List.map_map]
    rfl
  have groups : (run.map fun entry => (entry.1, additions entry)).map Prod.snd =
      run.map additions := by
    rw [List.map_map]
    rfl
  have ascending : Ascending (run.map additions) := by
    rw [Ascending, List.pairwise_map]
    refine apart.imp_of_mem fun {entry later} member member' below a inside b inside' => ?_
    obtain ⟨document, listed, has⟩ := owned entry member a inside
    obtain ⟨other, listed', has'⟩ := owned later member' b inside'
    obtain ⟨posting, -, rfl⟩ := List.mem_map.mp has
    obtain ⟨posting', -, rfl⟩ := List.mem_map.mp has'
    exact below document listed other listed'
  have together := @mergeTerms_ascending _ settings
    (run.map fun entry => (entry.1, additions entry)) (groups ▸ ascending)
    (fun other member => by
      obtain ⟨entry, inside, rfl⟩ := List.mem_map.mp member
      exact served entry inside)
    budget termsFile segment.terms (segments ▸ addressable)
    (fun disk => readable disk segment.terms terms) (segments ▸ terms)
  refine ⟨_, together, fun a member => ?_⟩
  rw [groups] at member
  obtain ⟨group, listed, member⟩ := List.mem_flatten.mp member
  obtain ⟨entry, inside, rfl⟩ := List.mem_map.mp listed
  obtain ⟨document, there, has⟩ := owned entry inside a member
  exact ⟨document, List.mem_flatMap.mpr ⟨entry, inside, there⟩, has⟩

theorem mergeLoop_accounts {files : Files} (fanin : 2 ≤ settings.mergeFanin) (fuel : Nat)
    (accounts : index.Accounts mapping filing recent)
    (finished : index.mergeLoop settings files fuel = some next) :
    ∃ filing', next.Accounts mapping filing' recent ∧
      filing'.flatMap Prod.snd = filing.flatMap Prod.snd ∧
      (index.Posts settings filing recent → MergesFit settings files fuel index →
        next.Posts settings filing' recent) := by
  induction fuel generalizing index filing with
  | zero =>
    cases finished
    exact ⟨filing, accounts, rfl, fun posts _ => posts⟩
  | succ fuel ih =>
    rw [mergeLoop] at finished
    split at finished
    · cases finished
      exact ⟨filing, accounts, rfl, fun posts _ => posts⟩
    · rename_i start ending eligible
      obtain ⟨middle, produced, finished⟩ := Option.bind_eq_some_iff.mp finished
      obtain ⟨proper, inside⟩ := findEligibleMergeRun_spec eligible
      obtain ⟨front, run, rear, segment, rfl, taken, built, shape, accounts'⟩ :=
        mergeSegmentsRun_accounts accounts (by omega) inside produced
      obtain ⟨filing', done, same, later⟩ := ih accounts' finished
      refine ⟨filing', done, by simpa using same, fun posts fits => ?_⟩
      obtain ⟨⟨addressable, readable⟩, rest⟩ := fits (start, ending) eligible
      rw [taken] at addressable readable
      have inside_run : ∀ entry ∈ run, entry ∈ front ++ run ++ rear := fun entry member =>
        List.mem_append_left _ (List.mem_append_right _ member)
      have tiles := accounts.tiles
      rw [accounts.segments] at tiles
      have apart := documents_ascend tiles accounts.placed
        (fun entry member => accounts.nonempty entry.1 (by
          rw [accounts.segments]
          exact List.mem_map_of_mem member))
        (accounts.hint.trans_lt accounts.bounded)
      have indexes := mergedSegment_indexes
        ((List.pairwise_append.mp (List.pairwise_append.mp apart).1).2.1)
        (fun entry member => posts.sealed entry (inside_run entry member)) addressable readable built
      refine later ⟨?_, ?_, ?_⟩ (rest middle produced)
      · intro entry member
        rcases List.mem_append.mp member with member | member
        · rcases List.mem_append.mp member with member | member
          · exact posts.sealed entry (List.mem_append_left _ (List.mem_append_left _ member))
          · rw [List.mem_singleton.mp member]
            exact indexes
        · exact posts.sealed entry (List.mem_append_right _ member)
      · rw [shape]
        exact posts.active
      · rw [shape]
        exact posts.builder

theorem sealing_accounts {files : Files} (accounts : index.Accounts mapping filing recent)
    (finished : (index.sealActive settings files).maybeMergeAfterSeal settings files = some next) :
    ∃ filing' recent', next.Accounts mapping filing' recent' ∧
      filing'.flatMap Prod.snd ++ recent' = filing.flatMap Prod.snd ++ recent ∧
      (settings.flushBudgetBytes.isSome = true → index.Posts settings filing recent →
        index.SealFits settings files → next.Posts settings filing' recent') := by
  obtain ⟨filing', recent', accounts', same, posts'⟩ :=
    @sealActive_accounts _ settings _ _ _ _ accounts files
  unfold maybeMergeAfterSeal at finished
  split at finished
  · cases finished
    exact ⟨filing', recent', accounts', same, fun _ posts fits => posts' posts fits.1⟩
  · rename_i fanin
    obtain ⟨filing'', accounts'', same', posts''⟩ := mergeLoop_accounts (by omega) _ accounts' finished
    refine ⟨filing'', recent', accounts'', by rw [same', same], fun budgeted posts fits => ?_⟩
    exact posts'' (posts' posts fits.1) (fits.2 budgeted (by omega))

end Merging

section Runs

def addedDocuments : List Step → List Document
  | [] => []
  | .addDocuments documents _ _ _ :: rest => documents ++ addedDocuments rest
  | _ :: rest => addedDocuments rest

/- A step that adds a batch under a mapping and is accepted, or that seals or materializes. -/
def AddsUnder (settings : Settings Digest) (mapping : IndexMapping) (index : DocumentIndex Digest) :
    Step → Prop
  | .addDocuments documents mapping' deferred files => mapping' = mapping ∧
    ∃ next, index.addDocuments settings documents mapping' deferred files = (.ok (), next)
  | .clear => False
  | _ => True

/- The dictionaries that a step builds are within their tables, and can be read. -/
def TermsFit (settings : Settings Digest) (index : DocumentIndex Digest) : Step → Prop
  | .addDocuments documents mapping deferred files => deferred = false → (index.mergeAll
    (documents.map (analyzeDocument settings.unicode mapping))).2.BuildFits settings files
  | .materializeTerms files => index.termsDirty = true → index.BuildFits settings files
  | .maybeFlushByBudget memoryBytes files =>
    (∃ budget, settings.flushBudgetBytes = some budget ∧ budget ≤ memoryBytes) →
      index.SealFits settings files
  | .materializeTermsAndFinalizePostings files => index.SealFits settings files
  | .clear => True

theorem step_accounts (accounts : index.Accounts mapping filing recent) (action : Step)
    (adds : AddsUnder settings mapping index action)
    (distinct : ((filing.flatMap Prod.snd ++ (recent ++ (addedDocuments [action]).map
      (analyzeDocument settings.unicode mapping))).map AnalyzedDocument.docId).Nodup)
    (stepped : index.step settings action = some next) :
    ∃ filing' recent', next.Accounts mapping filing' recent' ∧
      filing'.flatMap Prod.snd ++ recent' = filing.flatMap Prod.snd ++ (recent ++
        (addedDocuments [action]).map (analyzeDocument settings.unicode mapping)) ∧
      (index.Posts settings filing recent → TermsFit settings index action →
        next.Posts settings filing' recent') := by
  cases action with
  | addDocuments documents mapping' deferred files =>
    obtain ⟨rfl, after, added⟩ := adds
    have arrived : next = after := by
      rw [step, added] at stepped
      exact (Option.some.inj stepped).symm
    subst arrived
    rw [addedDocuments, addedDocuments, List.append_nil] at distinct ⊢
    exact ⟨filing, _, addDocuments_accounts accounts distinct added, rfl,
      fun posts fits => addDocuments_posts posts fits added⟩
  | materializeTerms files =>
    cases stepped
    exact ⟨filing, recent, materializeTerms_accounts accounts files, by simp [addedDocuments],
      fun posts fits => materializeTerms_posts posts fits⟩
  | maybeFlushByBudget memoryBytes files =>
    simp only [addedDocuments, List.map_nil, List.append_nil]
    simp only [step, maybeFlushByBudget] at stepped
    split at stepped
    · cases stepped
      exact ⟨filing, recent, accounts, rfl, fun posts _ => posts⟩
    · rename_i budget budgeted
      split at stepped
      · cases stepped
        exact ⟨filing, recent, accounts, rfl, fun posts _ => posts⟩
      · rename_i due
        obtain ⟨filing', recent', accounts', same, posts'⟩ := sealing_accounts accounts stepped
        refine ⟨filing', recent', accounts', same, fun posts fits => ?_⟩
        exact posts' (by rw [budgeted]; rfl) posts (fits ⟨budget, budgeted, by omega⟩)
  | materializeTermsAndFinalizePostings files =>
    simp only [addedDocuments, List.map_nil, List.append_nil]
    simp only [step, materializeTermsAndFinalizePostings] at stepped
    split at stepped
    · rename_i budgeted
      obtain ⟨filing', recent', accounts', same, posts'⟩ := sealing_accounts accounts stepped
      exact ⟨filing', recent', accounts', same, fun posts fits => posts' budgeted posts fits⟩
    · cases stepped
      exact ⟨filing, recent, materializeActiveSegmentTerms_accounts accounts files, rfl,
        fun posts fits => materializeActiveSegmentTerms_posts posts fits.1⟩
  | clear => exact adds.elim

theorem run_accounts {steps : List Step} (accounts : index.Accounts mapping filing recent)
    (adds : Meets settings (AddsUnder settings mapping) index steps)
    (distinct : ((filing.flatMap Prod.snd ++ (recent ++ (addedDocuments steps).map
      (analyzeDocument settings.unicode mapping))).map AnalyzedDocument.docId).Nodup)
    (finished : index.run settings steps = some next) :
    ∃ filing' recent', next.Accounts mapping filing' recent' ∧
      filing'.flatMap Prod.snd ++ recent' = filing.flatMap Prod.snd ++ (recent ++
        (addedDocuments steps).map (analyzeDocument settings.unicode mapping)) ∧
      (index.Posts settings filing recent → Meets settings (TermsFit settings) index steps →
        next.Posts settings filing' recent') := by
  induction steps generalizing index filing recent with
  | nil =>
    cases finished
    exact ⟨filing, recent, accounts, by simp [addedDocuments], fun posts _ => posts⟩
  | cons action rest ih =>
    obtain ⟨middle, stepped, finished⟩ := Option.bind_eq_some_iff.mp finished
    have split : addedDocuments (action :: rest) =
        addedDocuments [action] ++ addedDocuments rest := by
      cases action <;> simp [addedDocuments]
    have shape : filing.flatMap Prod.snd ++ (recent ++ (addedDocuments (action :: rest)).map
        (analyzeDocument settings.unicode mapping)) =
        filing.flatMap Prod.snd ++ (recent ++ (addedDocuments [action]).map
          (analyzeDocument settings.unicode mapping)) ++
          (addedDocuments rest).map (analyzeDocument settings.unicode mapping) := by
      rw [split, List.map_append]
      simp only [List.append_assoc]
    rw [shape] at distinct ⊢
    have here : ((filing.flatMap Prod.snd ++ (recent ++ (addedDocuments [action]).map
        (analyzeDocument settings.unicode mapping))).map AnalyzedDocument.docId).Nodup := by
      rw [List.map_append] at distinct
      exact (List.nodup_append.mp distinct).1
    obtain ⟨filing', recent', accounts', same, posts'⟩ :=
      step_accounts accounts action adds.1 here stepped
    rw [← same, List.append_assoc] at distinct ⊢
    obtain ⟨filing'', recent'', accounts'', same', posts''⟩ :=
      ih accounts' (adds.2 middle stepped) distinct finished
    refine ⟨filing'', recent'', accounts'', same', fun posts fits => ?_⟩
    exact posts'' (posts' posts fits.1) (fits.2 middle stepped)

end Runs

end DocumentIndex

end Surch.Index
