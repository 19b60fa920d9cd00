import Surch.Index.LengthTallies
import Surch.Index.StoredPostings
import Surch.Index.TokenCounts

/-! Runs that add documents, each once: which documents a segment has, that its statistics are theirs,
and that its postings are, through sealing and merging. -/
namespace Surch.Index
open Surch.Lib Surch.Codec Surch.Postings

variable {Digest : Type} {settings : Settings Digest}

def lengthsAt (docBase : Nat) (field : String) (documents : List AnalyzedDocument) :
    List (Nat × Nat) :=
  documents.filterMap fun document =>
    (document.fieldLengths.get? field).map fun entry => (document.docId - docBase, entry.1)

/- The documents lie in a range. The last identifier does not raise the hint past itself. -/
def PlacedIn (first last : Nat) (documents : List AnalyzedDocument) : Prop :=
  ∀ document ∈ documents,
    first ≤ document.docId ∧ min (document.docId + 1) (2 ^ 32 - 1) ≤ last

def Measured (mapping : IndexMapping) (document : AnalyzedDocument) : Prop :=
  ∀ field, ∀ entry ∈ document.fieldLengths.get? field,
    entry.1 ≠ 0 ∧ entry.2 = mapping.normsEnabled field

theorem analyzeDocument_measured (unicode : Unicode) (mapping : IndexMapping) (document : Document) :
    Measured mapping (analyzeDocument unicode mapping document) := by
  intro field entry found
  rw [analyzeDocument_fieldLengths, lengthEntry] at found
  split at found
  · cases found
  · rename_i nonzero
    cases found
    exact ⟨nonzero, rfl⟩

theorem lengthsAt_append (docBase : Nat) (field : String) (documents more : List AnalyzedDocument) :
    lengthsAt docBase field (documents ++ more) =
      lengthsAt docBase field documents ++ lengthsAt docBase field more :=
  List.filterMap_append

theorem mem_lengthsAt {docBase : Nat} {field : String} {documents : List AnalyzedDocument}
    {entry : Nat × Nat} (member : entry ∈ lengthsAt docBase field documents) :
    ∃ document ∈ documents, entry.1 = document.docId - docBase ∧
      ∃ norms, document.fieldLengths.get? field = some (entry.2, norms) := by
  obtain ⟨document, inside, found⟩ := List.mem_filterMap.mp member
  obtain ⟨⟨tokens, norms⟩, there, rfl⟩ := Option.map_eq_some_iff.mp found
  exact ⟨document, inside, rfl, norms, there⟩

theorem lengthsAt_shift {first middle : Nat} (field : String) {documents : List AnalyzedDocument}
    (above : ∀ document ∈ documents, middle ≤ document.docId) (below : first ≤ middle) :
    lengthsAt first field documents =
      (lengthsAt middle field documents).map fun entry => (middle - first + entry.1, entry.2) := by
  rw [lengthsAt, lengthsAt, List.map_filterMap]
  refine List.filterMap_congr fun document member => ?_
  rw [Option.map_map]
  refine Option.map_congr fun entry _ => ?_
  have low := above document member
  simp only [Function.comp_apply, Prod.mk.injEq, and_true]
  omega

namespace FieldLengthStats

/-- The tallies of two neighbours. The bytes of the second start behind the range of the first. -/
theorem Tallies.append {stats more : FieldLengthStats} {normsEnabled : Bool} {size count : Nat}
    {lengths lengths' : List (Nat × Nat)} (tallies : stats.Tallies normsEnabled size lengths)
    (tallies' : more.Tallies normsEnabled count lengths')
    (inside : ∀ entry ∈ lengths, entry.1 < size) (merged : FieldLengthStats)
    (docCount : merged.docCount = stats.docCount + more.docCount)
    (totalTerms : merged.totalTerms = stats.totalTerms + more.totalTerms)
    (docLenDense : ∀ docId, merged.docLenDense.getD docId 0 =
      if docId < size then stats.docLenDense.getD docId 0 else more.docLenDense.getD (docId - size) 0)
    (length : merged.docLenDense.length ≤ size + max count more.docLenDense.length)
    (minDocLen : merged.minDocLen = joinMin stats.minDocLen more.minDocLen?) :
    merged.Tallies normsEnabled (size + count)
      (lengths ++ lengths'.map fun entry => (size + entry.1, entry.2)) := by
  refine ⟨?_, ?_, fun norms => ?_, fun norms => ?_, ?_, ?_, fun norms encodes => ?_⟩
  · intro entry member
    rcases List.mem_append.mp member with member | member
    · exact tallies.positive entry member
    · obtain ⟨other, there, rfl⟩ := List.mem_map.mp member
      exact tallies'.positive other there
  · rw [docCount, tallies.docCount, tallies'.docCount, List.length_append, List.length_map]
  · rw [totalTerms, tallies.totalTerms norms, tallies'.totalTerms norms, List.map_append,
      List.sum_append, List.map_map]
    rfl
  · intro entry member
    rw [docLenDense]
    rcases List.mem_append.mp member with member | member
    · rw [if_pos (inside entry member)]
      exact tallies.present norms entry member
    · obtain ⟨other, there, rfl⟩ := List.mem_map.mp member
      rw [if_neg (by omega), Nat.add_sub_cancel_left]
      exact tallies'.present norms other there
  · intro docId missing
    rw [docLenDense]
    split
    · exact tallies.absent docId fun entry member => missing entry (List.mem_append_left _ member)
    · refine tallies'.absent _ fun entry member same => ?_
      have apart := missing _ (List.mem_append_right _ (List.mem_map_of_mem member))
      omega
  · intro bound above within
    have reach := tallies'.extent (bound - size) (by omega) fun entry member => by
      have := within _ (List.mem_append_right _ (List.mem_map_of_mem member))
      omega
    omega
  · have left : ∀ entry ∈ lengths, encodedLen entry.2 ≠ 0 := fun entry member =>
      encodes entry (List.mem_append_left _ member)
    have right : ∀ entry ∈ lengths', encodedLen entry.2 ≠ 0 := fun entry member =>
      encodes (size + entry.1, entry.2)
        (List.mem_append_right _ (List.mem_map.mpr ⟨entry, member, rfl⟩))
    rw [minDocLen, minDocLen?, tallies.least norms left, tallies'.least norms right,
      joinMin_leastOf (storedLen_pos left) (storedLen_pos right), List.map_append, List.map_map]
    rfl

end FieldLengthStats

structure Segment.Counts (segment : Segment Digest) (mapping : IndexMapping)
    (documents : List AnalyzedDocument) : Prop where
  tallies : ∀ field, ((segment.fieldStats.get? field).getD .default).Tallies
    (mapping.normsEnabled field) segment.docCount (lengthsAt segment.docBase field documents)
  present : ∀ field, segment.fieldStats.get? field ≠ none →
    lengthsAt segment.docBase field documents ≠ []

theorem Segment.Counts.missing {segment : Segment Digest} {mapping : IndexMapping}
    {documents : List AnalyzedDocument} (counts : segment.Counts mapping documents) {field : String}
    (missing : segment.fieldStats.get? field = none) :
    lengthsAt segment.docBase field documents = [] := by
  have none_counted := (counts.tallies field).docCount
  rw [missing] at none_counted
  exact List.length_eq_zero_iff.mp none_counted.symm

section Merging

variable {mapping : IndexMapping} {run : List (Segment Digest × List AnalyzedDocument)}
  {first middle last : Nat}

/- One step of `merge_field_stats`. A segment without the field adds padding to no statistics. -/
def FieldLengthStats.join (merged stats : FieldLengthStats) (docCount : Nat) : FieldLengthStats where
  docCount := merged.docCount + stats.docCount
  totalTerms := merged.totalTerms + stats.totalTerms
  docLenDense := merged.docLenDense ++ stats.docLenDense ++
    List.replicate (docCount - stats.docLenDense.length) 0
  minDocLen := joinMin merged.minDocLen stats.minDocLen?

theorem mergeStats_eq_foldl (segments : List (Segment Digest)) (field : String) :
    mergeStats segments field = segments.foldl
      (fun merged segment =>
        merged.join ((segment.fieldStats.get? field).getD .default) segment.docCount) .default := by
  rw [mergeStats]
  congr 1
  funext merged segment
  cases segment.fieldStats.get? field with
  | some stats => rfl
  | none => simp [FieldLengthStats.join, FieldLengthStats.default, FieldLengthStats.minDocLen?, joinMin]

theorem getD_padded (left right : List Nat) (padding docId : Nat) :
    (left ++ right ++ List.replicate padding 0).getD docId 0 =
      if docId < left.length then left.getD docId 0 else right.getD (docId - left.length) 0 := by
  simp only [List.getD_eq_getElem?_getD, List.append_assoc, List.getElem?_append,
    List.getElem?_replicate]
  split
  · rfl
  · split
    · rfl
    · rename_i past
      rw [List.getElem?_eq_none (not_lt.mp past)]
      split <;> rfl

/-- The statistics of a run of neighbours are merged into those of all their documents. -/
theorem mergeStats_tallies (field : String)
    (tiles : Tiles Segment.docBase Segment.docCount middle last (run.map Prod.fst))
    (counted : ∀ entry ∈ run, entry.1.Counts mapping entry.2)
    (placed : ∀ entry ∈ run,
      PlacedIn entry.1.docBase (entry.1.docBase + entry.1.docCount) entry.2)
    (nonempty : ∀ entry ∈ run, 0 < entry.1.docCount) (bounded : last < 2 ^ 32)
    {merged : FieldLengthStats} {documents : List AnalyzedDocument} (below : first ≤ middle)
    (tallies : merged.Tallies (mapping.normsEnabled field) (middle - first)
      (lengthsAt first field documents))
    (behind : run ≠ [] → merged.docLenDense.length = middle - first ∧
      ∀ document ∈ documents, first ≤ document.docId ∧ document.docId < middle) :
    (run.foldl (fun merged entry => merged.join ((entry.1.fieldStats.get? field).getD .default)
      entry.1.docCount) merged).Tallies
      (mapping.normsEnabled field) (last - first)
      (lengthsAt first field (documents ++ run.flatMap Prod.snd)) := by
  induction run generalizing merged documents middle with
  | nil =>
    have ends : middle = last := tiles
    rw [List.flatMap_nil, List.append_nil, ← ends]
    exact tallies
  | cons entry rest ih =>
    obtain ⟨here, tiles⟩ := tiles
    obtain ⟨full, within⟩ := behind (List.cons_ne_nil _ _)
    have counts := counted entry List.mem_cons_self
    have place := placed entry List.mem_cons_self
    have some_documents := nonempty entry List.mem_cons_self
    have known := counts.tallies field
    rw [here] at place known
    rw [List.foldl_cons, List.flatMap_cons, ← List.append_assoc]
    refine ih tiles (fun other member => counted other (List.mem_cons_of_mem _ member))
      (fun other member => placed other (List.mem_cons_of_mem _ member))
      (fun other member => nonempty other (List.mem_cons_of_mem _ member)) (by omega) ?_ ?_
    · have size : middle + entry.1.docCount - first = middle - first + entry.1.docCount := by omega
      rw [size, lengthsAt_append,
        lengthsAt_shift field (fun document member => (place document member).1) below]
      refine tallies.append known ?_ _ rfl rfl (fun docId => ?_) ?_ rfl
      · intro other member
        obtain ⟨document, inside, same, -⟩ := mem_lengthsAt member
        have := within document inside
        omega
      · rw [FieldLengthStats.join, getD_padded, full]
      · simp only [FieldLengthStats.join, List.length_append, List.length_replicate, full]
        omega
    · -- a segment that another one follows does not reach the last identifier
      intro more
      have room : middle + entry.1.docCount < 2 ^ 32 - 1 := by
        obtain ⟨other, member⟩ := List.exists_mem_of_ne_nil _ more
        have positive := nonempty other (List.mem_cons_of_mem _ member)
        have := tiles.inside other.1 (List.mem_map_of_mem member)
        omega
      have strict : ∀ document ∈ entry.2, document.docId < middle + entry.1.docCount := by
        intro document member
        have := (place document member).2
        omega
      constructor
      · have reach := known.extent entry.1.docCount le_rfl fun other member => by
          obtain ⟨document, inside, same, -⟩ := mem_lengthsAt member
          have := strict document inside
          omega
        simp only [FieldLengthStats.join, List.length_append, List.length_replicate, full]
        omega
      · intro document member
        rcases List.mem_append.mp member with member | member
        · have := within document member
          omega
        · exact ⟨below.trans (place document member).1, strict document member⟩

theorem mergedSegment_counts {segment : Segment Digest} {budget : Nat}
    {termsFile subfieldFile : Device}
    (tiles : Tiles Segment.docBase Segment.docCount first last (run.map Prod.fst))
    (counted : ∀ entry ∈ run, entry.1.Counts mapping entry.2)
    (placed : ∀ entry ∈ run,
      PlacedIn entry.1.docBase (entry.1.docBase + entry.1.docCount) entry.2)
    (nonempty : ∀ entry ∈ run, 0 < entry.1.docCount) (bounded : last < 2 ^ 32)
    (some_run : run ≠ [])
    (built : DocumentIndex.mergedSegment settings (run.map Prod.fst) budget termsFile subfieldFile =
      some segment) :
    segment.Counts mapping (run.flatMap Prod.snd) := by
  obtain ⟨base, size⟩ := DocumentIndex.mergedSegment_range tiles bounded (by simpa using some_run) built
  have stats : segment.fieldStats = mergeFieldStats (run.map Prod.fst) := by
    simp only [DocumentIndex.mergedSegment, Option.bind_eq_bind, Option.bind_eq_some_iff, Option.pure_def] at built
    obtain ⟨terms, _, result⟩ := built
    cases result
    rfl
  have parts : ∀ field, lengthsAt first field (run.flatMap Prod.snd) ≠ [] ↔
      ∃ entry ∈ run, lengthsAt entry.1.docBase field entry.2 ≠ [] := by
    intro field
    simp only [lengthsAt, List.filterMap_flatMap, ne_eq, List.filterMap_eq_nil_iff,
      List.flatMap_eq_nil_iff, Option.map_eq_none_iff, not_forall, exists_prop]
  have keys : ∀ field, field ∈ ((run.map Prod.fst).flatMap fun segment => segment.fieldStats.keys) ↔
      ∃ entry ∈ run, entry.1.fieldStats.get? field ≠ none := by
    intro field
    simp only [List.mem_flatMap, List.mem_map, exists_exists_and_eq_and, ne_eq,
      SortedMap.get?_eq_none_iff, not_not]
  constructor
  · intro field
    rw [stats, base, size, mergeFieldStats, SortedMap.get?_ofKeys]
    split
    · have tallies := @mergeStats_tallies _ mapping run first first last field tiles counted placed
        nonempty bounded .default [] le_rfl
        ((FieldLengthStats.default_tallies (mapping.normsEnabled field) 0).mono (Nat.zero_le _))
        fun _ => ⟨(Nat.sub_self first).symm, by simp⟩
      rw [List.nil_append] at tallies
      rw [Option.getD_some, mergeStats_eq_foldl, List.foldl_map]
      exact tallies
    · rename_i unknown
      have nothing : lengthsAt first field (run.flatMap Prod.snd) = [] := by
        by_contra some_lengths
        obtain ⟨entry, member, nonzero⟩ := (parts field).mp some_lengths
        refine unknown ((keys field).mpr ⟨entry, member, fun missing => ?_⟩)
        exact nonzero ((counted entry member).missing missing)
      rw [nothing]
      exact FieldLengthStats.default_tallies _ _
  · intro field known
    rw [stats, mergeFieldStats, SortedMap.get?_ofKeys] at known
    rw [base]
    split at known
    · rename_i listed
      obtain ⟨entry, member, there⟩ := (keys field).mp listed
      exact (parts field).mpr ⟨entry, member, (counted entry member).present field there⟩
    · exact absurd rfl known

end Merging

namespace DocumentIndex

structure Accounts (index : DocumentIndex Digest) (mapping : IndexMapping)
    (filing : List (Segment Digest × List AnalyzedDocument)) (recent : List AnalyzedDocument) :
    Prop where
  segments : index.sealedSegments = filing.map Prod.fst
  tiles : Tiles Segment.docBase Segment.docCount 0 index.active.docBase index.sealedSegments
  nonempty : ∀ segment ∈ index.sealedSegments, 0 < segment.docCount
  hint : index.active.docBase ≤ index.nextDocIdHint
  bounded : index.nextDocIdHint < 2 ^ 32
  unsealed : index.active.docCount = 0
  placed : ∀ entry ∈ filing,
    PlacedIn entry.1.docBase (entry.1.docBase + entry.1.docCount) entry.2
  placedRecent : PlacedIn index.active.docBase index.nextDocIdHint recent
  counts : ∀ entry ∈ filing, entry.1.Counts mapping entry.2
  countsRecent : index.active.Counts mapping recent
  distinct : ((filing.flatMap Prod.snd ++ recent).map AnalyzedDocument.docId).Nodup

variable {index next : DocumentIndex Digest} {mapping : IndexMapping}
  {filing : List (Segment Digest × List AnalyzedDocument)} {recent : List AnalyzedDocument}

theorem new_counts (docBase : Nat) (mapping : IndexMapping) :
    (Segment.new docBase : Segment Digest).Counts mapping [] where
  tallies _ := FieldLengthStats.default_tallies _ _
  present _ known := absurd rfl known

theorem new_accounts (mapping : IndexMapping) :
    (new : DocumentIndex Digest).Accounts mapping [] [] where
  segments := rfl
  tiles := rfl
  nonempty := by simp [new]
  hint := by simp [new, Segment.new]
  bounded := by simp [new]
  unsealed := rfl
  placed := by simp
  placedRecent := by simp [PlacedIn]
  counts := by simp
  countsRecent := new_counts 0 mapping
  distinct := by simp

theorem Accounts.of_same (accounts : index.Accounts mapping filing recent)
    (sealed : next.sealedSegments = index.sealedSegments)
    (base : next.active.docBase = index.active.docBase)
    (count : next.active.docCount = index.active.docCount)
    (stats : next.active.fieldStats = index.active.fieldStats)
    (hint : next.nextDocIdHint = index.nextDocIdHint) : next.Accounts mapping filing recent where
  segments := sealed.trans accounts.segments
  tiles := by
    rw [sealed, base]
    exact accounts.tiles
  nonempty := by
    rw [sealed]
    exact accounts.nonempty
  hint := by
    rw [base, hint]
    exact accounts.hint
  bounded := hint ▸ accounts.bounded
  unsealed := count.trans accounts.unsealed
  placed := accounts.placed
  placedRecent := by
    rw [base, hint]
    exact accounts.placedRecent
  counts := accounts.counts
  countsRecent := by
    constructor
    · rw [stats, base, count]
      exact accounts.countsRecent.tallies
    · rw [stats, base]
      exact accounts.countsRecent.present
  distinct := accounts.distinct

section Adding

theorem recordLengths_get? (index : DocumentIndex Digest) (document : AnalyzedDocument)
    (field : String) :
    (index.recordLengths document).active.fieldStats.get? field =
      match document.fieldLengths.get? field with
      | some entry => some (((index.active.fieldStats.get? field).getD .default).recordDocLen
          (document.docId - index.active.docBase) entry.1 entry.2)
      | none => index.active.fieldStats.get? field := by
  have folded := @SortedMap.get?_foldl_entries _ _ _ _ _ document.fieldLengths.sorted
    (fun (entry : Nat × Bool) (lengths : Option FieldLengthStats) =>
      (lengths.getD .default).recordDocLen (document.docId - index.active.docBase) entry.1 entry.2)
    index.active.fieldStats field
  have whole : (index.recordLengths document).active.fieldStats =
      document.fieldLengths.entries.foldl
        (fun stats entry => stats.upsert entry.1 fun lengths =>
          (lengths.getD .default).recordDocLen (document.docId - index.active.docBase) entry.2.1
            entry.2.2)
        index.active.fieldStats := rfl
  have looked : document.fieldLengths.get? field = document.fieldLengths.entries.lookup field := rfl
  rw [whole, folded, looked]
  cases document.fieldLengths.entries.lookup field <;> rfl

theorem mergeAnalyzed_accounts (accounts : index.Accounts mapping filing recent)
    {document : AnalyzedDocument} (above : index.active.docBase ≤ document.docId)
    (fresh : ∀ other ∈ filing.flatMap Prod.snd ++ recent, other.docId ≠ document.docId)
    (measured : Measured mapping document)
    (merged : index.mergeAnalyzed document = (.ok (), next)) :
    next.Accounts mapping filing (recent ++ [document]) := by
  obtain ⟨builder, -, rfl⟩ := mergeAnalyzed_ok merged
  have low := accounts.hint
  have high := accounts.bounded
  refine ⟨accounts.segments, accounts.tiles, accounts.nonempty, ?_, ?_, accounts.unsealed,
    accounts.placed, ?_, accounts.counts, ?_, ?_⟩
  · exact low.trans (le_max_left _ _)
  · exact max_lt high (by omega)
  · intro other member
    rcases List.mem_append.mp member with member | member
    · have place := accounts.placedRecent other member
      exact ⟨place.1, place.2.trans (le_max_left _ _)⟩
    · obtain rfl := List.mem_singleton.mp member
      exact ⟨above, le_max_right _ _⟩
  · constructor
    · intro field
      rw [recordLengths_get?]
      have tallies := accounts.countsRecent.tallies field
      cases found : document.fieldLengths.get? field with
      | none =>
        have same : lengthsAt index.active.docBase field (recent ++ [document]) =
            lengthsAt index.active.docBase field recent := by
          rw [lengthsAt_append]
          simp [lengthsAt, found]
        exact same ▸ tallies
      | some entry =>
        obtain ⟨nonzero, norms⟩ := measured field entry found
        have more : lengthsAt index.active.docBase field (recent ++ [document]) =
            lengthsAt index.active.docBase field recent ++
              [(document.docId - index.active.docBase, entry.1)] := by
          rw [lengthsAt_append]
          simp [lengthsAt, found]
        have recorded := @FieldLengthStats.Tallies.recordDocLen _ _ _ _ tallies
          (document.docId - index.active.docBase) entry.1 (fun other member same => by
            obtain ⟨earlier, inside, local_id, -⟩ := mem_lengthsAt member
            have apart := fresh earlier (List.mem_append_right _ inside)
            have := (accounts.placedRecent earlier inside).1
            omega) nonzero
        rw [← norms] at recorded ⊢
        exact more ▸ recorded
    · intro field known
      rw [recordLengths_get?] at known
      have kept : (lengthsAt index.active.docBase field (recent ++ [document])) ≠ [] := by
        rw [lengthsAt_append]
        cases found : document.fieldLengths.get? field with
        | none =>
          rw [found] at known
          have before := accounts.countsRecent.present field known
          simp [before]
        | some entry => simp [lengthsAt, found]
      exact kept
  · rw [← List.append_assoc, List.map_append, List.map_singleton]
    refine List.nodup_append.mpr ⟨accounts.distinct, List.nodup_singleton _, ?_⟩
    intro docId member other last
    obtain ⟨earlier, inside, rfl⟩ := List.mem_map.mp member
    rw [List.mem_singleton.mp last]
    exact fresh earlier inside

theorem mergeAll_accounts (accounts : index.Accounts mapping filing recent)
    {documents : List AnalyzedDocument}
    (above : ∀ document ∈ documents, index.active.docBase ≤ document.docId)
    (distinct : ((filing.flatMap Prod.snd ++ (recent ++ documents)).map
      AnalyzedDocument.docId).Nodup)
    (measured : ∀ document ∈ documents, Measured mapping document)
    (merged : index.mergeAll documents = (.ok (), next)) :
    next.Accounts mapping filing (recent ++ documents) := by
  induction documents generalizing index recent with
  | nil =>
    cases merged
    rw [List.append_nil]
    exact accounts
  | cons document rest ih =>
    rw [mergeAll] at merged
    split at merged
    · cases merged
    · rename_i middle one
      have kept := mergeAnalyzed_kept index document
      rw [one] at kept
      have base := kept.docBase
      have shape : recent ++ document :: rest = recent ++ [document] ++ rest := by
        rw [List.append_assoc, List.singleton_append]
      have fresh : ∀ other ∈ filing.flatMap Prod.snd ++ recent, other.docId ≠ document.docId := by
        intro other member
        rw [← List.append_assoc, List.map_append] at distinct
        exact (List.nodup_append.mp distinct).2.2 other.docId (List.mem_map_of_mem member)
          document.docId (List.mem_map_of_mem List.mem_cons_self)
      have accounts' := mergeAnalyzed_accounts accounts (above document List.mem_cons_self) fresh
        (measured document List.mem_cons_self) one
      rw [shape] at distinct ⊢
      exact ih accounts'
        (fun other member => base ▸ above other (List.mem_cons_of_mem _ member)) distinct
        (fun other member => measured other (List.mem_cons_of_mem _ member)) merged

theorem addDocuments_accounts (accounts : index.Accounts mapping filing recent)
    {documents : List Document} {deferred : Bool} {files : Files}
    (distinct : ((filing.flatMap Prod.snd ++ (recent ++
      documents.map (analyzeDocument settings.unicode mapping))).map AnalyzedDocument.docId).Nodup)
    (added : index.addDocuments settings documents mapping deferred files = (.ok (), next)) :
    next.Accounts mapping filing
      (recent ++ documents.map (analyzeDocument settings.unicode mapping)) := by
  unfold addDocuments at added
  split at added
  · cases added
  · rename_i valid
    split at added
    · cases added
    · rename_i middle merged
      have accounts' := mergeAll_accounts accounts
        (fun document member => by
          obtain ⟨raw, inside, rfl⟩ := List.mem_map.mp member
          rw [analyzeDocument_docId]
          exact (((validateFrom_ok_iff [] documents).mp valid).1 raw inside).1)
        distinct
        (fun document member => by
          obtain ⟨raw, -, rfl⟩ := List.mem_map.mp member
          exact analyzeDocument_measured settings.unicode mapping raw) merged
      split at added
      · cases added
        exact accounts'.of_same rfl rfl rfl rfl rfl
      · cases added
        exact accounts'.of_same rfl rfl rfl rfl rfl

end Adding

section Sealing

theorem materializeTerms_accounts (accounts : index.Accounts mapping filing recent)
    (files : Files) : (index.materializeTerms settings files).Accounts mapping filing recent := by
  unfold materializeTerms
  split
  · exact accounts
  · exact accounts.of_same rfl rfl rfl rfl rfl

theorem materializeActiveSegmentTerms_accounts (accounts : index.Accounts mapping filing recent)
    (files : Files) :
    (index.materializeActiveSegmentTerms settings files).Accounts mapping filing recent :=
  accounts.of_same rfl rfl rfl rfl rfl

/-- A seal files the recent documents with the segment it closes, when there are any. -/
theorem startNewActiveSegment_accounts (accounts : index.Accounts mapping filing recent) :
    (index.nextDocIdHint ≤ index.active.docBase ∧
        index.startNewActiveSegmentIfNonempty = index) ∨
      index.startNewActiveSegmentIfNonempty.Accounts mapping
        (filing ++ [({ index.active with
          docCount := index.nextDocIdHint - index.active.docBase }, recent)]) [] := by
  unfold startNewActiveSegmentIfNonempty
  split
  · rename_i nothing
    exact .inl ⟨nothing, rfl⟩
  · rename_i some_documents
    have low := accounts.hint
    have ends : index.active.docBase + (index.nextDocIdHint - index.active.docBase) =
        index.nextDocIdHint := Nat.add_sub_of_le low
    right
    refine ⟨?_, ?_, ?_, le_rfl, accounts.bounded, rfl, ?_, ?_, ?_, new_counts _ mapping, ?_⟩
    · rw [List.map_append, accounts.segments]
      rfl
    · exact accounts.tiles.append (.singleton rfl ends)
    · intro segment member
      rcases List.mem_append.mp member with member | member
      · exact accounts.nonempty segment member
      · rw [List.mem_singleton.mp member]
        exact Nat.sub_pos_of_lt (not_le.mp some_documents)
    · intro entry member
      rcases List.mem_append.mp member with member | member
      · exact accounts.placed entry member
      · obtain rfl := List.mem_singleton.mp member
        dsimp only
        rw [ends]
        exact accounts.placedRecent
    · simp [PlacedIn]
    · intro entry member
      rcases List.mem_append.mp member with member | member
      · exact accounts.counts entry member
      · obtain rfl := List.mem_singleton.mp member
        refine ⟨fun field => ?_, accounts.countsRecent.present⟩
        refine (accounts.countsRecent.tallies field).mono ?_
        rw [accounts.unsealed]
        exact Nat.zero_le _
    · rw [List.flatMap_append, List.append_nil]
      simpa using accounts.distinct

end Sealing

theorem mergeSegmentsRun_accounts (accounts : index.Accounts mapping filing recent)
    {start ending : Nat} {termsFile subfieldFile : Device} (proper : start < ending)
    (inside : ending ≤ index.sealedSegments.length)
    (produced : index.mergeSegmentsRun settings start ending termsFile subfieldFile = some next) :
    ∃ front run rear segment, filing = front ++ run ++ rear ∧
      (index.sealedSegments.drop start).take (ending - start) = run.map Prod.fst ∧
      mergedSegment settings (run.map Prod.fst) (index.p2IntegrityBudgetExcluding start ending)
        termsFile subfieldFile = some segment ∧
      next = { index with
        sealedSegments := front.map Prod.fst ++ [segment] ++ rear.map Prod.fst } ∧
      next.Accounts mapping (front ++ [(segment, run.flatMap Prod.snd)] ++ rear) recent := by
  obtain ⟨before, run, after, segment, cut, built, rfl⟩ :=
    mergeSegmentsRun_spec proper inside produced
  have split := cut.sealed
  rw [accounts.segments, List.map_eq_append_iff] at split
  obtain ⟨front, rear, filing_eq, front_eq, rfl⟩ := split
  rw [List.map_eq_append_iff] at front_eq
  obtain ⟨head, middle, front_eq, rfl, rfl⟩ := front_eq
  subst front_eq filing_eq
  have tiles := accounts.tiles
  rw [accounts.segments, List.map_append, List.map_append] at tiles
  obtain ⟨high, tiles, tiles_rear⟩ := tiles_append.mp tiles
  obtain ⟨low, tiles_head, tiles_run⟩ := tiles_append.mp tiles
  have bounded := accounts.bounded
  have hint := accounts.hint
  have below := tiles_rear.le
  have nonempty : ∀ entry ∈ head ++ middle ++ rear, 0 < entry.1.docCount := by
    intro entry member
    refine accounts.nonempty entry.1 ?_
    rw [accounts.segments]
    exact List.mem_map_of_mem member
  have run_nonempty : middle ≠ [] := by simpa using cut.nonempty
  obtain ⟨base, size⟩ := mergedSegment_range tiles_run (by omega) cut.nonempty built
  refine ⟨head, middle, rear, segment, rfl, cut.run_eq.symm, built, rfl, ?_⟩
  have inside_run : ∀ entry ∈ middle, entry ∈ head ++ middle ++ rear := fun entry member =>
    List.mem_append_left _ (List.mem_append_right _ member)
  have counted := mergedSegment_counts tiles_run
    (fun entry member => accounts.counts entry (inside_run entry member))
    (fun entry member => accounts.placed entry (inside_run entry member))
    (fun entry member => nonempty entry (inside_run entry member)) (by omega) run_nonempty built
  have placed_run : PlacedIn segment.docBase (segment.docBase + segment.docCount)
      (middle.flatMap Prod.snd) := by
    intro document member
    obtain ⟨entry, listed, member⟩ := List.mem_flatMap.mp member
    have place := accounts.placed entry (inside_run entry listed) document member
    have range := tiles_run.inside entry.1 (List.mem_map_of_mem listed)
    have ends : low + (high - low) = high := Nat.add_sub_of_le tiles_run.le
    rw [base, size, ends]
    exact ⟨range.1.trans place.1, place.2.trans range.2⟩
  have grown : low < high := by
    obtain ⟨entry, member⟩ := List.exists_mem_of_ne_nil _ run_nonempty
    have positive := nonempty entry (inside_run entry member)
    have range := tiles_run.inside entry.1 (List.mem_map_of_mem member)
    omega
  have around : ∀ {P : Segment Digest × List AnalyzedDocument → Prop},
      (∀ entry ∈ head ++ middle ++ rear, P entry) → P (segment, middle.flatMap Prod.snd) →
      ∀ entry ∈ head ++ [(segment, middle.flatMap Prod.snd)] ++ rear, P entry := by
    intro P each new entry member
    rcases List.mem_append.mp member with member | member
    · rcases List.mem_append.mp member with member | member
      · exact each entry (List.mem_append_left _ (List.mem_append_left _ member))
      · rw [List.mem_singleton.mp member]
        exact new
    · exact each entry (List.mem_append_right _ member)
  refine ⟨?_, ?_, ?_, hint, bounded, accounts.unsealed, ?_, accounts.placedRecent, ?_,
    accounts.countsRecent, ?_⟩
  · simp
  · exact (tiles_head.append (.singleton base (by omega))).append tiles_rear
  · have each := around nonempty (show 0 < segment.docCount by omega)
    intro other member
    have listed : other ∈ (head ++ [(segment, middle.flatMap Prod.snd)] ++ rear).map Prod.fst := by
      simpa using member
    obtain ⟨entry, found, rfl⟩ := List.mem_map.mp listed
    exact each entry found
  · exact around accounts.placed placed_run
  · exact around accounts.counts counted
  · simpa using accounts.distinct

end DocumentIndex

end Surch.Index
