import Mathlib.Algebra.Group.Nat.Defs
import Mathlib.Algebra.Order.BigOperators.Group.List
import Surch.Api.Candidates
import Surch.Api.IndexSettings
import Surch.Api.MappingReplay
import Surch.Index.Probe
import Surch.Postings.Faithfulness

/-! Whether a document matches its own values: a query on a path finds what indexing posted there
when both choose one chain, and only then. -/
namespace Surch.Api
open Surch.Lib Surch.Postings Surch.Index

variable {Digest : Type} {settings : Settings Digest} {mapping : IndexMapping}
  {index next : DocumentIndex Digest} {document : Document}

theorem mem_docsOf (recorded : List Addition) (field term : String) (docId : Nat) :
    docId ∈ docsOf recorded (field, term) ↔
      ∃ a ∈ recorded, a.Adds field term ∧ a.docId = docId := by
  have found := find_addAll recorded field term
  rw [← mem_postingsOf_docIds, ← mem_settle_docIds_iff, docsOf, postingsFor]
  by_cases empty : Addition.postingsOf recorded field term = []
  · have missing : find (PostingsBuilder.new.addAll recorded).invert field term = none := by
      simp [find_invert, found, empty]
    simp [storedEntries_none missing, empty, settle, sortByDocId, dedupMergePostings]
  · have held : find (PostingsBuilder.new.addAll recorded).invert field term =
        some (termPostings (Addition.postingsOf recorded field term)) := by
      simp [find_invert, found, empty]
    rw [storedEntries_some held, entries_docs (invert_isPostings held).1]
    rfl

section Indexing

structure Indexed (settings : Settings Digest) (mapping : IndexMapping) (document : Document)
    (index : DocumentIndex Digest) : Prop where
  reached : ∃ steps, DocumentIndex.new.run settings steps = some index
  visible : document.Visible settings.unicode mapping
  stored : ∃ groups, Stores settings index groups ∧
    (analyzeDocument settings.unicode mapping document).additions ⊆ groups.flatten

def Recorded (settings : Settings Digest) (mapping : IndexMapping) (document : Document)
    (index : DocumentIndex Digest) : Prop :=
  ∃ filing pending, index.Filed settings filing pending ∧
    (analyzeDocument settings.unicode mapping document).additions ⊆
      (filing.map Prod.snd).flatten ++ pending

theorem addDocuments_recorded {filing : List (Segment Digest × List Addition)}
    {pending : List Addition} (filed : index.Filed settings filing pending)
    {documents : List Document} {deferred : Bool} {files : Files}
    (fits : index.BatchFits settings documents mapping deferred files)
    (accepted : index.addDocuments settings documents mapping deferred files = (.ok (), next))
    (member : document ∈ documents) :
    Recorded settings mapping document next := by
  have after := DocumentIndex.addDocuments_filed filed fits
  rw [accepted] at after
  refine ⟨filing, _, after, ?_⟩
  intro a posted
  apply List.mem_append_right
  apply List.mem_append_right
  cases valid : index.validate documents with
  | error error =>
    simp [DocumentIndex.addDocuments, valid] at accepted
  | ok _ =>
    simp only [DocumentIndex.batchAdditions, valid]
    exact List.mem_flatMap.mpr ⟨document, member, posted⟩

theorem step_recorded (budgeted : settings.flushBudgetBytes.isSome = true) {action : Step}
    (kept : action ≠ .clear) (fits : index.StepFits settings action)
    (stepped : index.step settings action = some next)
    (recorded : Recorded settings mapping document index) :
    Recorded settings mapping document next := by
  obtain ⟨filing, pending, filed, holds⟩ := recorded
  obtain ⟨filing', pending', filed', history⟩ := DocumentIndex.step_filed filed action fits stepped
  refine ⟨filing', pending', filed', ?_⟩
  rw [history budgeted]
  cases action with
  | addDocuments => exact List.subset_append_of_subset_left _ holds
  | clear => exact absurd rfl kept
  | _ => exact holds

theorem run_recorded (budgeted : settings.flushBudgetBytes.isSome = true) {steps : List Step}
    (fits : DocumentIndex.Meets settings
      (fun index action => index.StepFits settings action ∧ action ≠ .clear) index steps)
    (finished : index.run settings steps = some next)
    (recorded : Recorded settings mapping document index) :
    Recorded settings mapping document next := by
  apply DocumentIndex.run_rule _ recorded fits finished
  intro index next action recorded meets stepped
  exact step_recorded budgeted meets.2 meets.1 stepped recorded

theorem Recorded.indexed (recorded : Recorded settings mapping document index)
    (reached : ∃ steps, DocumentIndex.new.run settings steps = some index)
    (budgeted : settings.flushBudgetBytes.isSome = true) (ready : index.termsDirty = false)
    (visible : document.Visible settings.unicode mapping) :
    Indexed settings mapping document index := by
  obtain ⟨filing, pending, filed, holds⟩ := recorded
  obtain ⟨shown, served, within, same⟩ := filed.shown ready
  obtain rfl := same budgeted
  refine ⟨reached, visible, _, filed.stores_shown served within, ?_⟩
  simpa using holds

/-- A document that some batch of a run added is indexed wherever the run has not cleared it. -/
theorem indexed_of_run {last : DocumentIndex Digest}
    (budgeted : settings.flushBudgetBytes.isSome = true) {steps rest : List Step}
    (fits : DocumentIndex.Meets settings (DocumentIndex.StepFits settings) .new steps)
    (reached : DocumentIndex.new.run settings steps = some index)
    {documents : List Document} {deferred : Bool} {files : Files}
    (room : index.BatchFits settings documents mapping deferred files)
    (accepted : index.addDocuments settings documents mapping deferred files = (.ok (), next))
    (member : document ∈ documents)
    (later : DocumentIndex.Meets settings
      (fun index action => index.StepFits settings action ∧ action ≠ .clear) next rest)
    (finished : next.run settings rest = some last) (ready : last.termsDirty = false) :
    Indexed settings mapping document last := by
  obtain ⟨filing, pending, filed⟩ :=
    DocumentIndex.run_filed ⟨[], [], DocumentIndex.new_filed⟩ fits reached
  have recorded := run_recorded budgeted later finished
    (addDocuments_recorded filed room accepted member)
  have visible := ((DocumentIndex.addDocuments_ok_iff documents mapping deferred files).mp
    ⟨next, accepted⟩).1 document member
  apply recorded.indexed _ budgeted ready visible.2.2
  refine ⟨steps ++ .addDocuments documents mapping deferred files :: rest, ?_⟩
  simp [DocumentIndex.run_append, reached, DocumentIndex.run, DocumentIndex.step, accepted,
    finished]

/-- The second of three documents, flushed and merged after it was added. -/
theorem indexed_of_run_three_documents :
    ∃ last, DocumentIndex.new.run (sampleSettings true) mergingRun = some last ∧
      last.sealedSegments.map Segment.docCount = [2] ∧
      Indexed (sampleSettings true) .default (sampleDocument 1 "rust lean") last := by
  let opening := mergingRun.take 2
  let batch := [sampleDocument 1 "rust lean"]
  let closing := mergingRun.drop 3
  have before : (DocumentIndex.new.run (sampleSettings true) opening).map (fun index =>
      (index.addDocuments (sampleSettings true) batch .default true reliableFiles).1) = some (.ok ()) := by
    decide +kernel
  have after : (DocumentIndex.new.run (sampleSettings true) mergingRun).map (fun last =>
      (last.termsDirty, last.sealedSegments.map Segment.docCount)) = some (false, [2]) := by
    decide +kernel
  obtain ⟨index, reached, accepted⟩ := Option.map_eq_some_iff.mp before
  obtain ⟨last, finished, values⟩ := Option.map_eq_some_iff.mp after
  obtain ⟨ready, merged⟩ := Prod.mk.inj values
  have split : mergingRun = opening ++ .addDocuments batch .default true reliableFiles :: closing := rfl
  have fits := mergingRun_fits
  rw [split] at fits
  obtain ⟨room, later⟩ := DocumentIndex.meets_append fits reached
  have opened : DocumentIndex.Meets (sampleSettings true)
      (DocumentIndex.StepFits (sampleSettings true)) .new opening :=
    DocumentIndex.checkRun_fits (by simp [opening, mergingRun, Step.Read, reliableFiles_read])
      (by decide +kernel)
  have kept : ∀ action ∈ closing, action ≠ .clear := by simp [closing, mergingRun]
  let next := (index.addDocuments (sampleSettings true) batch .default true reliableFiles).2
  have added : index.addDocuments (sampleSettings true) batch .default true reliableFiles =
      (.ok (), next) := Prod.ext accepted rfl
  have closed : next.run (sampleSettings true) closing = some last := by
    rw [split, DocumentIndex.run_append, reached] at finished
    exact finished
  exact ⟨last, finished, merged, indexed_of_run rfl opened reached room added
    (List.mem_singleton_self _) (DocumentIndex.meets_and (later _ rfl) kept) closed ready⟩

end Indexing

section Matching

variable {unicode : Unicode} {place : Place}

/- Every value from which a document posts something under the path of a place finds the document
there, when all its terms have to match. -/
def MatchesItself (unicode : Unicode) (mapping : IndexMapping) (place : Place) : Prop :=
  ∀ (Digest : Type) (settings : Settings Digest) (index : DocumentIndex Digest)
    (document : Document) (value : String),
    settings.unicode = unicode → Indexed settings mapping document index →
      (place.source, value) ∈ document.fields →
      (place.analyzed unicode mapping value).keys ≠ [] →
      document.docId ∈ matchHitsInternal settings mapping index place.path value true

theorem Indexed.posted (indexed : Indexed settings mapping document index)
    (declared : place.Declared mapping) {value term : String}
    (member : (place.source, value) ∈ document.fields)
    (term_here : term ∈ (place.chain settings.unicode mapping).terms settings.unicode value)
    {groups : List (List Addition)}
    (holds : (analyzeDocument settings.unicode mapping document).additions ⊆ groups.flatten) :
    document.docId ∈ docsOf groups.flatten (place.path, term) := by
  obtain ⟨positions, posting⟩ := (mem_analyzeDocument_postings settings.unicode mapping document
    place.path term).mpr ⟨place, value, declared, rfl, member, term_here⟩
  have named := analyzeDocument_named settings.unicode mapping indexed.visible.1 _ posting
  have visible := indexed.visible.2 _ posting
  rw [mem_docsOf]
  refine ⟨_, holds (List.mem_map_of_mem posting), ⟨?_, rfl, rfl⟩, ?_⟩
  · simp [Addition.accepted, named, visible]
  · exact DocumentIndex.analyzeDocument_docId settings.unicode mapping document

/-- A query that chooses the chain of the index finds every document by its own values. -/
theorem matchesItself_of_chain (declared : place.Declared mapping)
    (same : mapping.queryChain unicode place.path = place.chain unicode mapping) :
    MatchesItself unicode mapping place := by
  rintro Digest settings index document value rfl indexed member posted
  obtain ⟨groups, stores, holds⟩ := indexed.stored
  have terms : normalizedTermsForField settings.unicode value place.path mapping =
      (place.chain settings.unicode mapping).terms settings.unicode value := by
    rw [queryChain_terms, same]
  apply ((matchHitsInternal_spec stores place.path value true).2 document.docId).mpr
  simp only [Satisfies, terms, if_true]
  constructor
  · obtain ⟨term, key⟩ := List.exists_mem_of_ne_nil _ posted
    exact List.ne_nil_of_mem ((place.mem_keys_analyzed _ _ value term).mp key)
  · intro term inside
    exact indexed.posted declared member inside holds

end Matching

section OneDocument

variable {unicode : Unicode} {additions : List Addition}

def OneDocument (additions : List Addition) : Prop :=
  ∀ a ∈ additions, a.docId = 0 ∧ a.term ∈ probeTerms

theorem OneDocument.docIds (one : OneDocument additions) {field term : String} {v : TermPostings}
    (found : find (PostingsBuilder.new.addAll additions).invert field term = some v) :
    v.1.length ≤ 1 := by
  have increasing := List.isChain_iff_pairwise.mp (invert_isPostings found).1.increasing
  have zero : ∀ d ∈ v.1, d = 0 := by
    intro d member
    simp only [find_invert, find_addAll] at found
    split at found
    · cases found
    · cases found
      obtain ⟨a, inside, _, rfl⟩ := (mem_postingsOf_docIds additions field term d).mp
        ((mem_settle_docIds_iff _ d).mp member)
      exact (one a inside).1
  match v.1, increasing, zero with
  | [], _, _ => simp
  | [_], _, _ => simp
  | first :: second :: _, increasing, zero =>
    have below := (List.pairwise_cons.mp increasing).1 second List.mem_cons_self
    have last := zero second (by simp)
    omega

theorem OneDocument.addressable (one : OneDocument additions) :
    Addressable false (PostingsBuilder.new.addAll additions).invert := by
  constructor
  · intro name terms at_field
    have found : ∀ entry ∈ terms.entries,
        find (PostingsBuilder.new.addAll additions).invert name entry.1 = some entry.2 := by
      intro entry member
      simpa [find, at_field] using (terms.get?_eq_some_iff entry.1 entry.2).mpr member
    have listed : terms.keys ⊆ probeTerms := by
      intro term key
      obtain ⟨v, value⟩ := (terms.mem_keys_iff term).mp key
      obtain ⟨a, member, _, _, rfl⟩ := (find_additions additions name term).mp
        ⟨v, by simpa [find, at_field] using value⟩
      exact (one a member).2
    have few : terms.entries.length ≤ probeTerms.length := by
      simpa [SortedMap.keys] using (terms.keys_nodup.subperm listed).length_le
    have total := List.sum_le_card_nsmul (terms.entries.map fun entry => entry.2.1.length) 1 (by
      rw [List.forall_mem_map]
      exact fun entry member => one.docIds (found entry member))
    have bound : probeTerms.length = 7 := rfl
    rw [List.length_map, Nat.nsmul_eq_mul, Nat.mul_one] at total
    omega
  · intro onDisk
    cases onDisk

def probeDocument (source : String) : Document := ⟨0, [(source, probe)], zero_fits⟩

def probeSettings (unicode : Unicode) : Settings (List UInt8) :=
  { sampleSettings false with unicode }

variable (mapping) (tables : unicode.AgreesOnAscii) {source : String}

include tables

theorem probe_terms {posting : String × String × List Nat}
    (member : posting ∈ (analyzeDocument unicode mapping (probeDocument source)).postings) :
    posting.2.1 ∈ probeTerms := by
  obtain ⟨place, value, _, _, only, inside⟩ := (mem_analyzeDocument_postings unicode mapping
    (probeDocument source) posting.1 posting.2.1).mp ⟨posting.2.2, member⟩
  simp only [probeDocument, List.mem_singleton, Prod.mk.injEq] at only
  rw [only.2] at inside
  exact chain_probe tables _ _ inside

theorem probe_visible (named : isBlank source = false) :
    (probeDocument source).Visible unicode mapping := by
  constructor
  · simpa [probeDocument] using named
  · intro posting member
    exact (by decide : ∀ term ∈ probeTerms, isBlank term = false) _
      (probe_terms mapping tables member)

theorem probe_one :
    OneDocument (analyzeDocument unicode mapping (probeDocument source)).additions := by
  intro a member
  obtain ⟨posting, inside, rfl⟩ := List.mem_map.mp member
  exact ⟨DocumentIndex.analyzeDocument_docId unicode mapping (probeDocument source),
    probe_terms mapping tables inside⟩

theorem exists_probe_index (named : isBlank source = false) :
    ∃ index, (∃ steps, DocumentIndex.new.run (probeSettings unicode) steps = some index) ∧
      Stores (probeSettings unicode) index
        [(analyzeDocument unicode mapping (probeDocument source)).additions] := by
  obtain ⟨names, terms⟩ := probe_visible mapping tables named
  have valid : (DocumentIndex.new : DocumentIndex (List UInt8)).validate [probeDocument source] =
      .ok () := by
    apply (DocumentIndex.validateFrom_ok_iff [] _).mpr
    constructor
    · rw [List.forall_mem_singleton]
      exact ⟨Nat.zero_le _, (by decide : LiveDocsBitset.default.contains 0 = false),
        List.not_mem_nil, names⟩
    · exact List.nodup_singleton _
  obtain ⟨merged, accepted⟩ := (@DocumentIndex.mergeAll_ok_iff (List UInt8) .new
      [analyzeDocument unicode mapping (probeDocument source)]).mpr (by
    rw [List.forall_mem_singleton]
    exact fun posting member =>
      ⟨analyzeDocument_named unicode mapping names posting member, terms posting member⟩)
  have builder := DocumentIndex.mergeAll_additions accepted
  rw [List.flatMap_singleton] at builder
  have fits : (DocumentIndex.new : DocumentIndex (List UInt8)).BatchFits (probeSettings unicode)
      [probeDocument source] mapping false reliableFiles := by
    refine .inr ⟨?_, fun _ => ⟨?_, nofun⟩⟩
    · rw [List.forall_mem_singleton]
      exact ⟨⟨names, terms⟩, Nat.zero_lt_succ _⟩
    · show Addressable false (DocumentIndex.mergeAll _ _).2.postingsBuilder.invert
      rw [List.map_singleton, show (probeSettings unicode).unicode = unicode from rfl, accepted,
        builder]
      exact (probe_one mapping tables).addressable
  have filed := DocumentIndex.addDocuments_filed DocumentIndex.new_filed fits
  have ready : (DocumentIndex.new.addDocuments (probeSettings unicode) [probeDocument source]
      mapping false reliableFiles).2.termsDirty = false := by
    simp only [DocumentIndex.addDocuments, valid, List.map_singleton,
      show (probeSettings unicode).unicode = unicode from rfl, accepted]
    rfl
  obtain ⟨shown, served, within, same⟩ := filed.shown ready
  obtain rfl := same rfl
  have stores := filed.stores_shown served within
  simp only [DocumentIndex.batchAdditions, valid, List.flatMap_singleton] at stores
  exact ⟨_, ⟨[.addDocuments [probeDocument source] mapping false reliableFiles], rfl⟩, stores⟩

end OneDocument

section Differing

variable {unicode : Unicode} {place : Place}

theorem Place.unique (mapped : Declared unicode mapping) (declared : place.Declared mapping)
    {other : Place} (declared' : other.Declared mapping) (source : other.source = place.source)
    (path : other.path = place.path) : other = place := by
  cases place with
  | field name =>
    cases other with
    | field name' => rw [show name' = name from source]
    | subfield parent subName sub =>
      obtain rfl : parent = name := source
      exact absurd path (subfieldPath_ne parent subName)
  | subfield parent subName sub =>
    cases other with
    | field name =>
      obtain rfl : name = parent := source
      exact absurd path.symm (subfieldPath_ne name subName)
    | subfield parent' subName' sub' =>
      obtain rfl : parent' = parent := source
      obtain rfl : subName' = subName := subfieldPath_inj path
      obtain ⟨field, found, here⟩ := declared
      obtain ⟨field', found', here'⟩ := declared'
      obtain rfl := Option.some.inj (found.symm.trans found')
      have sorted := (mapped _ _ found).sorted
      have same := (SortedMap.lookup_of_mem sorted here).symm.trans
        (SortedMap.lookup_of_mem sorted here')
      rw [Option.some.inj same]

/-- A query whose terms for the probe are not among the posted ones misses the probe. -/
theorem not_matchesItself (tables : unicode.AgreesOnAscii) (mapped : Declared unicode mapping)
    (declared : place.Declared mapping) (named : isBlank place.source = false)
    (posts : (place.chain unicode mapping).terms unicode probe ≠ [])
    (apart : (mapping.queryChain unicode place.path).terms unicode probe = [] ∨
      ∃ term ∈ (mapping.queryChain unicode place.path).terms unicode probe,
        term ∉ (place.chain unicode mapping).terms unicode probe) :
    ¬ MatchesItself unicode mapping place := by
  intro matching
  obtain ⟨index, reached, stores⟩ := exists_probe_index mapping tables named
  have posted : (place.analyzed unicode mapping probe).keys ≠ [] := by
    obtain ⟨term, member⟩ := List.exists_mem_of_ne_nil _ posts
    exact List.ne_nil_of_mem ((place.mem_keys_analyzed unicode mapping probe term).mpr member)
  have found := matching _ (probeSettings unicode) index (probeDocument place.source) probe rfl
    ⟨reached, probe_visible mapping tables named, _, stores, by simp [probeSettings]⟩
    List.mem_cons_self posted
  have satisfied := ((matchHitsInternal_spec stores place.path probe true).2 _).mp found
  simp only [Satisfies, if_true, queryChain_terms] at satisfied
  rcases apart with none | ⟨term, queried, missing⟩
  · exact satisfied.1 none
  · obtain ⟨a, member, adds, _⟩ := (mem_docsOf _ place.path term _).mp (satisfied.2 term queried)
    rw [List.flatten_singleton] at member
    obtain ⟨⟨path, word, positions⟩, posting, rfl⟩ := List.mem_map.mp member
    obtain ⟨-, rfl, rfl⟩ := adds
    obtain ⟨other, value, declared', same, only, inside⟩ := (mem_analyzeDocument_postings unicode
      mapping (probeDocument place.source) _ _).mp ⟨positions, posting⟩
    simp only [probeDocument, List.mem_singleton, Prod.mk.injEq] at only
    rw [Place.unique mapped declared declared' only.1 same, only.2] at inside
    exact missing inside

end Differing

section Condition

variable (unicode : Unicode) (mapping : IndexMapping)

def Unsearched (place : Place) : Prop :=
  ∀ field ∈ mapping.resolveField place.path,
    field.searchAnalyzer = none ∧ field.customSearchAnalyzer = none

def LeadsBack : Place → Prop
  | .field _ => True
  | .subfield parent subName _ =>
    mapping.fields.get? (subfieldPath parent subName) = none ∧ '.' ∉ subName.toList

/- No custom analyzer under a field's name; a sub-field that is no keyword, with the simple analyzer
or a custom one that can be resolved. -/
def ServedAlike : Place → Prop
  | .field name => ∀ field ∈ mapping.resolveField name, field.customAnalyzer = none
  | .subfield _ _ sub => sub.fieldType ≠ .keyword ∧
    match sub.customAnalyzer with
    | none => sub.analyzer = .simple
    | some name => (mapping.analysis.resolveAnalyzer unicode name).isSome

variable {unicode} {mapping} {place : Place} {path : String} {field : FieldMapping}

theorem resolveField_cases (found : mapping.resolveField path = some field) :
    mapping.fields.get? path = some field ∨ mapping.fields.get? path = none ∧
      ∃ parent subName fieldMapping, rsplitOnce path '.' = some (parent, subName) ∧
        mapping.fields.get? parent = some fieldMapping ∧
        (subName, field) ∈ fieldMapping.fields := by
  rw [IndexMapping.resolveField] at found
  cases declared : mapping.fields.get? path with
  | some top =>
    rw [declared] at found
    exact .inl found
  | none =>
    rw [declared] at found
    obtain ⟨⟨parent, subName⟩, split, found⟩ := Option.bind_eq_some_iff.mp found
    obtain ⟨fieldMapping, at_parent, found⟩ := Option.bind_eq_some_iff.mp found
    exact .inr ⟨rfl, parent, subName, fieldMapping, split, at_parent, SortedMap.mem_of_lookup found⟩

theorem definable_of_resolveField (mapped : Declared unicode mapping)
    (found : mapping.resolveField path = some field) : Definable unicode field := by
  rcases resolveField_cases found with
    top | ⟨_, parent, subName, fieldMapping, _, at_parent, member⟩
  · exact (mapped _ _ top).definable
  · exact ((mapped _ _ at_parent).subfields _ member).definable

theorem named_of_resolveField (printable : Printable mapping)
    (found : mapping.resolveField path = some field) : isBlank path = false := by
  rcases resolveField_cases found with top | ⟨_, parent, subName, fieldMapping, split, _, _⟩
  · exact (printable _ ((SortedMap.get?_eq_some_iff _ _ _).mp top)).1
  · apply List.all_eq_false.mpr
    exact ⟨'.', rsplitOnce_mem split, by decide⟩

theorem resolveField_subfield (mapped : Declared unicode mapping) {parent subName : String}
    {sub : FieldMapping} (declared : (Place.subfield parent subName sub).Declared mapping)
    (back : LeadsBack mapping (.subfield parent subName sub)) :
    mapping.resolveField (subfieldPath parent subName) = some sub := by
  obtain ⟨fieldMapping, found, member⟩ := declared
  have sorted := (mapped _ _ found).sorted
  simp [IndexMapping.resolveField, back.1, rsplitOnce_subfieldPath parent back.2, found,
    SortedMap.lookup_of_mem sorted member]

theorem analyzer_undeclared (missing : mapping.fields.get? path = none) :
    mapping.analyzer path = .simple := by
  simp [IndexMapping.analyzer, missing, AnalyzerName.defaultFor]

/-- A mapping that names a custom analyzer is of type text, and falls back to the simple one. -/
theorem Definable.of_custom (definable : Definable unicode field) {name : String}
    (custom : field.customAnalyzer = some name) :
    field.fieldType = .text ∧ field.analyzer = .simple ∧
      AnalyzerName.fromName unicode name = none := by
  have text : field.fieldType = .text := by
    by_contra other
    have absent := (definable.only_text other).2.1
    rw [custom] at absent
    cases absent
  have unnamed : field.analyzerName = none := by
    cases builtin : field.analyzerName with
    | none => rfl
    | some analyzer =>
      have absent := definable.analyzer.one (by rw [builtin]; rfl)
      rw [custom] at absent
      cases absent
  refine ⟨text, ?_, definable.analyzer.foreign name custom⟩
  simp [FieldMapping.analyzer, unnamed, text, AnalyzerName.defaultFor]

theorem queryChain_unsearched (unicode : Unicode) (unsearched : Unsearched mapping place)
    (found : mapping.resolveField place.path = some field) :
    mapping.queryChain unicode place.path =
      match field.customAnalyzer with
      | some name => .ofOption (mapping.analysis.resolveAnalyzer unicode name)
      | none => .builtin (mapping.analyzer place.path) := by
  obtain ⟨builtin, custom⟩ := unsearched field found
  rw [IndexMapping.queryChain, found]
  simp only [builtin, custom]
  cases field.customAnalyzer <;> rfl

theorem ServedAlike.same (mapped : Declared unicode mapping) (declared : place.Declared mapping)
    (unsearched : Unsearched mapping place) (back : LeadsBack mapping place)
    (alike : ServedAlike unicode mapping place) :
    mapping.queryChain unicode place.path = place.chain unicode mapping := by
  cases place with
  | field name =>
    cases found : mapping.resolveField name with
    | none =>
      show mapping.queryChain unicode name = _
      rw [IndexMapping.queryChain, found]
      rfl
    | some field =>
      rw [queryChain_unsearched unicode unsearched found, alike field found]
      rfl
  | subfield parent subName sub =>
    have found := resolveField_subfield mapped declared back
    have simple := analyzer_undeclared back.1
    obtain ⟨text, alike⟩ := alike
    rw [queryChain_unsearched unicode unsearched found]
    cases custom : sub.customAnalyzer with
    | none =>
      simp only [custom] at alike
      simp [Place.chain, Place.path, text, custom, simple, alike]
    | some name =>
      simp only [custom] at alike
      obtain ⟨analyzer, resolved⟩ := Option.isSome_iff_exists.mp alike
      simp [Place.chain, text, custom, resolved, Chain.ofOption]

/-- The terms of a custom analyzer for the probe are none, or not all those of the simple one. -/
theorem custom_apart (tables : unicode.AgreesOnAscii) {name : String}
    (foreign : AnalyzerName.fromName unicode name = none) (analysis : AnalysisSettings) :
    (Chain.ofOption (analysis.resolveAnalyzer unicode name)).terms unicode probe = [] ∨
      ∃ term ∈ (Chain.ofOption (analysis.resolveAnalyzer unicode name)).terms unicode probe,
        term ∉ (Chain.builtin .simple).terms unicode probe := by
  cases resolved : analysis.resolveAnalyzer unicode name with
  | none => exact .inl rfl
  | some analyzer =>
    simp only [AnalysisSettings.resolveAnalyzer, foreign] at resolved
    obtain ⟨definition, _, resolved⟩ := Option.bind_eq_some_iff.mp resolved
    obtain ⟨tokenizer, _, resolved⟩ := Option.bind_eq_some_iff.mp resolved
    cases resolved
    by_cases empty : (ResolvedAnalyzer.edgeNgram tokenizer.minGram tokenizer.maxGram
        (definition.filter.any (eqIgnoreAsciiCase · "lowercase"))
        (definition.filter.any (eqIgnoreAsciiCase · "asciifolding"))).terms unicode probe = []
    · exact .inl empty
    · exact .inr (grams_apart tables empty)

section Misses

variable (tables : unicode.AgreesOnAscii) (mapped : Declared unicode mapping)
  (declared : place.Declared mapping) (named : isBlank place.source = false)

include tables mapped declared named

theorem custom_misses (posting : place.chain unicode mapping = .builtin .simple) {name : String}
    (foreign : AnalyzerName.fromName unicode name = none)
    (querying : mapping.queryChain unicode place.path =
      .ofOption (mapping.analysis.resolveAnalyzer unicode name)) :
    ¬ MatchesItself unicode mapping place := by
  apply not_matchesItself tables mapped declared named
  · simp [posting, Chain.builtin, Chain.terms, ResolvedAnalyzer.terms, terms_probe tables]
  · rw [querying, posting]
    exact custom_apart tables foreign mapping.analysis

/-- Indexed with a normalizer or a built-in analyzer that is not the simple one, searched with the
simple one. -/
theorem simple_misses
    (posting : place.chain unicode mapping = .normalizer ∨
      ∃ analyzer, analyzer ≠ .simple ∧ place.chain unicode mapping = .builtin analyzer)
    (querying : mapping.queryChain unicode place.path = .builtin .simple) :
    ¬ MatchesItself unicode mapping place := by
  obtain ⟨posts, missing⟩ := simple_apart tables posting
  apply not_matchesItself tables mapped declared named posts
  refine .inr ⟨"the", ?_, missing⟩
  simp [querying, Chain.builtin, Chain.terms, ResolvedAnalyzer.terms, terms_probe tables]

end Misses

theorem ServedAlike.of_matchesItself (tables : unicode.AgreesOnAscii)
    (mapped : Declared unicode mapping) (printable : Printable mapping)
    (declared : place.Declared mapping) (unsearched : Unsearched mapping place)
    (back : LeadsBack mapping place) (matching : MatchesItself unicode mapping place) :
    ServedAlike unicode mapping place := by
  cases place with
  | field name =>
    intro field found
    by_contra other
    obtain ⟨custom, here⟩ := Option.ne_none_iff_exists'.mp other
    have definable := definable_of_resolveField mapped found
    obtain ⟨_, simple, foreign⟩ := definable.of_custom here
    have querying := queryChain_unsearched unicode unsearched found
    rw [here] at querying
    refine custom_misses tables mapped declared (named_of_resolveField printable found) ?_ foreign
      querying matching
    rcases resolveField_cases found with top | ⟨missing, _⟩
    · simp [Place.chain, IndexMapping.analyzer, top, simple]
    · simp [Place.chain, analyzer_undeclared missing]
  | subfield parent subName sub =>
    have found := resolveField_subfield mapped declared back
    have definable := definable_of_resolveField mapped found
    have simple := analyzer_undeclared back.1
    have named : isBlank parent = false := by
      obtain ⟨fieldMapping, here, _⟩ := declared
      exact (printable _ ((SortedMap.get?_eq_some_iff _ _ _).mp here)).1
    have querying := queryChain_unsearched unicode unsearched found
    rw [show (Place.subfield parent subName sub).path = subfieldPath parent subName from rfl,
      simple] at querying
    have text : sub.fieldType ≠ .keyword := by
      intro keyword
      have plain : sub.customAnalyzer = none := (definable.only_text (by simp [keyword])).2.1
      rw [plain] at querying
      refine simple_misses tables mapped declared named ?_ querying matching
      cases normalizer : sub.normalizer with
      | some _ => exact .inl (by simp [Place.chain, keyword, normalizer])
      | none => exact .inr ⟨.keyword, by decide, by simp [Place.chain, keyword, normalizer]⟩
    refine ⟨text, ?_⟩
    cases custom : sub.customAnalyzer with
    | none =>
      rw [custom] at querying
      by_contra other
      refine simple_misses tables mapped declared named ?_ querying matching
      exact .inr ⟨sub.analyzer, other, by simp [Place.chain, text, custom]⟩
    | some name =>
      rw [custom] at querying
      obtain ⟨_, default, foreign⟩ := definable.of_custom custom
      cases resolved : mapping.analysis.resolveAnalyzer unicode name with
      | some _ => simp [resolved]
      | none =>
        refine absurd matching (custom_misses tables mapped declared named ?_ foreign querying)
        simp [Place.chain, text, custom, resolved, default]

end Condition

section Claim

variable {unicode : Unicode} {place : Place}

/-- Documents match their own values wherever a query on the path chooses the chain of the index.
Where the path leads back to its place they do so if and only if a field has no custom analyzer, and
a sub-field is no keyword and has the simple analyzer or a custom one that can be resolved. -/
theorem matches_own_values (tables : unicode.AgreesOnAscii) (accepted : AcceptedMapping unicode)
    (declared : place.Declared accepted.mapping) (unsearched : Unsearched accepted.mapping place) :
    (accepted.mapping.queryChain unicode place.path = place.chain unicode accepted.mapping →
      MatchesItself unicode accepted.mapping place) ∧
    (LeadsBack accepted.mapping place →
      (MatchesItself unicode accepted.mapping place ↔
        ServedAlike unicode accepted.mapping place)) := by
  obtain ⟨mapping, properties, parsed⟩ := accepted
  obtain ⟨mapped, printable⟩ := declared_fromPropertiesValue parsed
  constructor
  · exact matchesItself_of_chain declared
  · intro back
    constructor
    · exact ServedAlike.of_matchesItself tables mapped printable declared unsearched back
    · intro alike
      exact matchesItself_of_chain declared (alike.same mapped declared unsearched back)

end Claim

section Examples

def nomProperties : Value :=
  .object [("NOM", .object [("analyzer", .string "norm"), ("fields", .object [("raw", .object
    [("normalizer", .string "norm"), ("type", .string "keyword")])]), ("type", .string "text")])]

def rawMapping : FieldMapping := { FieldMapping.new .keyword none with normalizer := some .norm }

def nomMapping : AcceptedMapping .ascii where
  mapping :=
    ⟨.singleton "NOM" { FieldMapping.new .text (some .norm) with fields := [("raw", rawMapping)] },
      .default⟩
  accepted := ⟨nomProperties, by with_unfolding_all rfl⟩

def rawPlace : Place := .subfield "NOM" "raw" rawMapping

theorem rawPlace_declared : rawPlace.Declared nomMapping.mapping := by
  refine ⟨{ FieldMapping.new .text (some .norm) with fields := [("raw", rawMapping)] }, ?_,
    List.mem_singleton_self _⟩
  simp [nomMapping]

theorem rawPlace_back : LeadsBack nomMapping.mapping rawPlace :=
  ⟨by simp [nomMapping, subfieldPath_ne], by decide⟩

theorem rawPlace_resolved : nomMapping.mapping.resolveField rawPlace.path = some rawMapping := by
  obtain ⟨properties, parsed⟩ := nomMapping.accepted
  exact resolveField_subfield (declared_fromPropertiesValue parsed).1 rawPlace_declared
    rawPlace_back

theorem nom_resolved : nomMapping.mapping.resolveField "NOM" =
    some { FieldMapping.new .text (some .norm) with fields := [("raw", rawMapping)] } := by
  simp [IndexMapping.resolveField, nomMapping]

theorem rawPlace_unsearched : Unsearched nomMapping.mapping rawPlace := by
  intro field found
  rw [rawPlace_resolved] at found
  cases found
  exact ⟨rfl, rfl⟩

theorem nom_unsearched : Unsearched nomMapping.mapping (.field "NOM") := by
  intro field found
  rw [show (Place.field "NOM").path = "NOM" from rfl, nom_resolved] at found
  cases found
  exact ⟨rfl, rfl⟩

/-- Names are found by themselves, and missed as whole names. -/
theorem matches_own_values_nom :
    MatchesItself .ascii nomMapping.mapping (.field "NOM") ∧
      ¬ MatchesItself .ascii nomMapping.mapping rawPlace := by
  constructor
  · have declared : (Place.field "NOM").Declared nomMapping.mapping := trivial
    apply ((matches_own_values Unicode.ascii_agrees nomMapping declared nom_unsearched).2
      trivial).mpr
    intro field found
    rw [nom_resolved] at found
    cases found
    rfl
  · rw [(matches_own_values Unicode.ascii_agrees nomMapping rawPlace_declared
      rawPlace_unsearched).2 rawPlace_back]
    exact fun alike => alike.1 rfl

/-- A keyword sub-field posts the whole value, and its path is searched with the simple analyzer. -/
theorem not_matches_own_values :
    ¬ ∀ (unicode : Unicode) (accepted : AcceptedMapping unicode) (place : Place),
      place.Declared accepted.mapping → Unsearched accepted.mapping place →
        MatchesItself unicode accepted.mapping place := by
  intro always
  have matching := always .ascii nomMapping rawPlace rawPlace_declared rawPlace_unsearched
  obtain ⟨properties, parsed⟩ := nomMapping.accepted
  obtain ⟨mapped, printable⟩ := declared_fromPropertiesValue parsed
  exact (ServedAlike.of_matchesItself Unicode.ascii_agrees mapped printable rawPlace_declared
    rawPlace_unsearched rawPlace_back matching).1 rfl

end Examples

end Surch.Api
