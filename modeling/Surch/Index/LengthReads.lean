import Surch.Index.AddingRuns

/-! What an index that keeps account of its documents answers: the aggregated statistics of a field,
the length of a document and the postings of a term are those of the documents. -/
namespace Surch.Index
open Surch.Lib Surch.Codec Surch.Postings

variable {Digest : Type} {settings : Settings Digest}

def tokensIn (field : String) (documents : List AnalyzedDocument) : List Nat :=
  documents.filterMap fun document => (document.fieldLengths.get? field).map Prod.fst

theorem tokensIn_append (field : String) (documents more : List AnalyzedDocument) :
    tokensIn field (documents ++ more) = tokensIn field documents ++ tokensIn field more :=
  List.filterMap_append

theorem map_lengthsAt (docBase : Nat) (field : String) (documents : List AnalyzedDocument) :
    (lengthsAt docBase field documents).map Prod.snd = tokensIn field documents := by
  rw [lengthsAt, List.map_filterMap, tokensIn]
  refine List.filterMap_congr fun document _ => ?_
  rw [Option.map_map]
  rfl

section Segments

variable {mapping : IndexMapping} {segments : List (Segment Digest × List AnalyzedDocument)}
  {field : String}

def statsOf (field : String) (segments : List (Segment Digest × List AnalyzedDocument)) :
    List FieldLengthStats :=
  (segments.map Prod.fst).filterMap fun segment => segment.fieldStats.get? field

theorem statsOf_cons (entry : Segment Digest × List AnalyzedDocument) :
    statsOf field (entry :: segments) =
      (entry.1.fieldStats.get? field).toList ++ statsOf field segments := by
  rw [statsOf, List.map_cons, List.filterMap_cons]
  cases entry.1.fieldStats.get? field <;> rfl

theorem statsOf_totals (counts : ∀ entry ∈ segments, entry.1.Counts mapping entry.2) :
    ((statsOf field segments).map FieldLengthStats.docCount).sum =
        (tokensIn field (segments.flatMap Prod.snd)).length ∧
      (mapping.normsEnabled field = true →
        ((statsOf field segments).map FieldLengthStats.totalTerms).sum =
          (tokensIn field (segments.flatMap Prod.snd)).sum) := by
  induction segments with
  | nil => exact ⟨rfl, fun _ => rfl⟩
  | cons entry rest ih =>
    have here := counts entry List.mem_cons_self
    have tallies := here.tallies field
    obtain ⟨counted, totalled⟩ := ih fun other member => counts other (List.mem_cons_of_mem _ member)
    have lengths := map_lengthsAt entry.1.docBase field entry.2
    have number := congrArg List.length lengths
    rw [List.length_map] at number
    rw [statsOf_cons, List.flatMap_cons, tokensIn_append, List.length_append, List.sum_append,
      List.map_append, List.map_append, List.sum_append, List.sum_append, counted, ← number,
      ← lengths, ← tallies.docCount]
    refine ⟨?_, fun norms => ?_⟩
    · cases entry.1.fieldStats.get? field <;> simp [FieldLengthStats.default]
    · rw [totalled norms, ← tallies.totalTerms norms]
      cases entry.1.fieldStats.get? field <;> simp [FieldLengthStats.default]

theorem statsOf_least (counts : ∀ entry ∈ segments, entry.1.Counts mapping entry.2)
    (norms : mapping.normsEnabled field = true)
    (encodes : ∀ tokens ∈ tokensIn field (segments.flatMap Prod.snd),
      FieldLengthStats.encodedLen tokens ≠ 0)
    (earlier : List Nat) (positive : ∀ length ∈ earlier, 0 < length) :
    ((statsOf field segments).map FieldLengthStats.minDocLen?).foldl joinMin
        (FieldLengthStats.leastOf earlier) =
      FieldLengthStats.leastOf (earlier ++
        (tokensIn field (segments.flatMap Prod.snd)).map FieldLengthStats.storedLen) := by
  induction segments generalizing earlier with
  | nil => rw [List.flatMap_nil, tokensIn, List.filterMap_nil, List.map_nil, List.append_nil]; rfl
  | cons entry rest ih =>
    have here := counts entry List.mem_cons_self
    have tallies := here.tallies field
    have lengths := map_lengthsAt entry.1.docBase field entry.2
    rw [List.flatMap_cons, tokensIn_append] at encodes ⊢
    have mine : ∀ other ∈ lengthsAt entry.1.docBase field entry.2,
        FieldLengthStats.encodedLen other.2 ≠ 0 := by
      intro other member
      refine encodes other.2 (List.mem_append_left _ ?_)
      rw [← lengths]
      exact List.mem_map_of_mem member
    have later := ih (fun other member => counts other (List.mem_cons_of_mem _ member))
      (fun tokens member => encodes tokens (List.mem_append_right _ member))
    have stored : (lengthsAt entry.1.docBase field entry.2).map
        (fun other => FieldLengthStats.storedLen other.2) =
        (tokensIn field entry.2).map FieldLengthStats.storedLen := by
      rw [← lengths, List.map_map]
      rfl
    have positive' := stored ▸ FieldLengthStats.storedLen_pos mine
    have least := tallies.least norms mine
    rw [stored] at least
    have joined := FieldLengthStats.joinMin_leastOf positive positive'
    rw [← least] at joined
    rw [statsOf_cons, List.map_append, List.foldl_append, List.map_append, ← List.append_assoc,
      ← later _ (by
        intro length member
        rcases List.mem_append.mp member with member | member
        · exact positive length member
        · exact positive' length member), ← joined]
    cases known : entry.1.fieldStats.get? field with
    | none => rfl
    | some stats => rfl

end Segments

namespace DocumentIndex

variable {index : DocumentIndex Digest} {mapping : IndexMapping}
  {filing : List (Segment Digest × List AnalyzedDocument)} {recent : List AnalyzedDocument}

namespace Accounts

theorem segments_eq (accounts : index.Accounts mapping filing recent) :
    index.segments = (filing ++ [(index.active, recent)]).map Prod.fst := by
  rw [DocumentIndex.segments, accounts.segments, List.map_append]
  rfl

theorem all_counts (accounts : index.Accounts mapping filing recent) :
    ∀ entry ∈ filing ++ [(index.active, recent)], entry.1.Counts mapping entry.2 := by
  intro entry member
  rcases List.mem_append.mp member with member | member
  · exact accounts.counts entry member
  · rw [List.mem_singleton.mp member]
    exact accounts.countsRecent

/-- The aggregated statistics of a field are those of the documents that have tokens in it. -/
theorem aggregated (accounts : index.Accounts mapping filing recent) (field : String) :
    match index.fieldStatsAggregated field with
    | none => tokensIn field (filing.flatMap Prod.snd ++ recent) = []
    | some stats =>
      stats.docCount = (tokensIn field (filing.flatMap Prod.snd ++ recent)).length ∧
      (mapping.normsEnabled field = true →
        stats.totalTerms = (tokensIn field (filing.flatMap Prod.snd ++ recent)).sum) ∧
      (mapping.normsEnabled field = true →
        (∀ tokens ∈ tokensIn field (filing.flatMap Prod.snd ++ recent),
          FieldLengthStats.encodedLen tokens ≠ 0) →
        stats.minDocLen = FieldLengthStats.leastOf
          ((tokensIn field (filing.flatMap Prod.snd ++ recent)).map FieldLengthStats.storedLen)) := by
  have found : (index.segments.filterMap fun segment => segment.fieldStats.get? field) =
      statsOf field (filing ++ [(index.active, recent)]) := by
    rw [accounts.segments_eq, statsOf]
  have documents : (filing ++ [(index.active, recent)]).flatMap Prod.snd =
      filing.flatMap Prod.snd ++ recent := by simp
  obtain ⟨counted, totalled⟩ := @statsOf_totals _ mapping _ field accounts.all_counts
  have least := @statsOf_least _ mapping _ field accounts.all_counts
  rw [documents] at counted totalled least
  rw [fieldStatsAggregated, found]
  split
  · rename_i aggregated
    split at aggregated
    · rename_i nothing
      rw [List.isEmpty_iff.mp nothing] at counted
      exact List.length_eq_zero_iff.mp counted.symm
    · cases aggregated
  · rename_i stats aggregated
    split at aggregated
    · cases aggregated
    · cases aggregated
      refine ⟨counted, totalled, fun norms encodes => ?_⟩
      exact least norms encodes [] (by simp)

theorem ordered (accounts : index.Accounts mapping filing recent) :
    (filing ++ [(index.active, recent)]).Pairwise fun entry later =>
      entry.1.docBase ≤ later.1.docBase ∧
      (∀ document ∈ entry.2, min (document.docId + 1) (2 ^ 32 - 1) ≤ later.1.docBase) ∧
      ∀ document ∈ entry.2, ∀ other ∈ later.2, document.docId < other.docId := by
  have tiles := accounts.tiles
  have nonempty : ∀ entry ∈ filing, 0 < entry.1.docCount := by
    intro entry member
    refine accounts.nonempty entry.1 ?_
    rw [accounts.segments]
    exact List.mem_map_of_mem member
  rw [accounts.segments] at tiles
  have apart := documents_ascend tiles accounts.placed nonempty
    (accounts.hint.trans_lt accounts.bounded)
  have disjoint := tiles.disjoint
  rw [List.pairwise_map] at disjoint
  refine List.pairwise_append.mpr ⟨?_, List.pairwise_singleton _ _, ?_⟩
  · refine (apart.and disjoint).imp_of_mem fun {entry later} member _ both => ⟨?_, ?_, both.1⟩
    · have := both.2
      omega
    · intro document inside
      exact (accounts.placed entry member document inside).2.trans both.2
  · intro entry member last here
    rw [List.mem_singleton.mp here]
    have range := tiles.inside entry.1 (List.mem_map_of_mem member)
    have reach : ∀ document ∈ entry.2,
        min (document.docId + 1) (2 ^ 32 - 1) ≤ index.active.docBase := fun document inside =>
      (accounts.placed entry member document inside).2.trans range.2
    refine ⟨by dsimp only; omega, reach, fun document inside other inside' => ?_⟩
    have low := reach document inside
    have high := (accounts.placedRecent other inside').1
    have fits := other.docId_fits
    have fits' := document.docId_fits
    have distinct : document.docId ≠ other.docId := by
      have all := accounts.distinct
      rw [List.map_append] at all
      exact (List.nodup_append.mp all).2.2 document.docId
        (List.mem_map_of_mem (List.mem_flatMap.mpr ⟨entry, member, inside⟩)) other.docId
        (List.mem_map_of_mem inside')
    omega

theorem recorded {segment : Segment Digest} {documents : List AnalyzedDocument}
    (counts : segment.Counts mapping documents) {document : AnalyzedDocument}
    (member : document ∈ documents) {field : String} {tokens : Nat} {norms : Bool}
    (length : document.fieldLengths.get? field = some (tokens, norms))
    (enabled : mapping.normsEnabled field = true) :
    ∃ stats, segment.fieldStats.get? field = some stats ∧
      stats.docLenDense.getD (document.docId - segment.docBase) 0 =
        FieldLengthStats.encodedLen tokens := by
  have listed : (document.docId - segment.docBase, tokens) ∈
      lengthsAt segment.docBase field documents :=
    List.mem_filterMap.mpr ⟨document, member, by rw [length]; rfl⟩
  cases known : segment.fieldStats.get? field with
  | none =>
    rw [counts.missing known] at listed
    cases listed
  | some stats =>
    have tallies := counts.tallies field
    rw [known, Option.getD_some] at tallies
    exact ⟨stats, rfl, tallies.present enabled _ listed⟩

theorem getElem?_of_getD {column : List Nat} {i byte : Nat} (present : byte ≠ 0)
    (found : column.getD i 0 = byte) : column[i]? = some byte := by
  rw [List.getD_eq_getElem?_getD] at found
  cases here : column[i]? with
  | none =>
    rw [here] at found
    exact absurd found.symm present
  | some other =>
    rw [here, Option.getD_some] at found
    rw [found]

/-- The owner of a document is the last segment with the field that starts below it. -/
theorem takeWhile_owner {front rear : List (Nat × FieldLengthStats)} {owner : Nat × FieldLengthStats}
    {docId : Nat} (below : ∀ other ∈ front, other.1 ≤ docId) (here : owner.1 ≤ docId)
    (above : ∀ other ∈ rear, docId < other.1) :
    ((front ++ owner :: rear).takeWhile fun other => other.1 ≤ docId).getLast? = some owner := by
  have first : (front ++ owner :: rear).takeWhile (fun other => other.1 ≤ docId) =
      front ++ [owner] := by
    rw [List.takeWhile_append_of_pos fun other member => decide_eq_true (below other member),
      List.takeWhile_cons, if_pos (decide_eq_true here)]
    cases rear with
    | nil => rfl
    | cons other rest =>
      have later := above other List.mem_cons_self
      rw [List.takeWhile_cons, if_neg (by simpa using later)]
  rw [first, List.getLast?_append]
  rfl

theorem docLen (accounts : index.Accounts mapping filing recent) {document : AnalyzedDocument}
    (member : document ∈ filing.flatMap Prod.snd ++ recent) {field : String} {tokens : Nat}
    {norms : Bool} (length : document.fieldLengths.get? field = some (tokens, norms))
    (enabled : mapping.normsEnabled field = true)
    (encodes : FieldLengthStats.encodedLen tokens ≠ 0) :
    index.docLen field document.docId = some (FieldLengthStats.storedLen tokens) := by
  have owned : ∃ entry ∈ filing ++ [(index.active, recent)], document ∈ entry.2 := by
    rcases List.mem_append.mp member with member | member
    · obtain ⟨entry, listed, inside⟩ := List.mem_flatMap.mp member
      exact ⟨entry, List.mem_append_left _ listed, inside⟩
    · exact ⟨_, List.mem_append_right _ (List.mem_singleton_self _), member⟩
  obtain ⟨entry, listed, inside⟩ := owned
  obtain ⟨stats, known, byte⟩ := recorded (accounts.all_counts entry listed) inside length enabled
  have start : entry.1.docBase ≤ document.docId := by
    rcases List.mem_append.mp listed with listed | listed
    · exact (accounts.placed entry listed document inside).1
    · obtain rfl := List.mem_singleton.mp listed
      exact (accounts.placedRecent document inside).1
  unfold DocumentIndex.docLen
  cases sealed : index.sealedSegments with
  | nil =>
    have alone : filing = [] := by
      have empty := accounts.segments
      rw [sealed] at empty
      exact List.map_eq_nil_iff.mp empty.symm
    have base : 0 = index.active.docBase := by
      have tiles := accounts.tiles
      rw [sealed] at tiles
      exact tiles
    rw [alone, List.nil_append] at listed
    obtain rfl := List.mem_singleton.mp listed
    dsimp only at known byte ⊢
    rw [← base, Nat.sub_zero] at byte
    rw [known, Option.bind_some, FieldLengthStats.docLen, getElem?_of_getD encodes byte,
      Option.filter_some, if_pos (decide_eq_true (Nat.pos_of_ne_zero encodes)), Option.map_some]
    rfl
  | cons first rest =>
    obtain ⟨front, rear, shape⟩ := List.append_of_mem listed
    have order := accounts.ordered
    rw [shape] at order
    obtain ⟨-, behind, before⟩ := List.pairwise_append.mp order
    obtain ⟨ahead, -⟩ := List.pairwise_cons.mp behind
    let owners : List (Segment Digest × List AnalyzedDocument) → List (Nat × FieldLengthStats) :=
      List.filterMap fun other =>
        (other.1.fieldStats.get? field).map fun stats => (other.1.docBase, stats)
    have split : index.fieldStatsSegments field =
        owners front ++ (entry.1.docBase, stats) :: owners rear := by
      rw [fieldStatsSegments, accounts.segments_eq, shape, List.filterMap_map, List.filterMap_append,
        List.filterMap_cons]
      simp only [Function.comp_apply, known, Option.map_some]
      rfl
    have owner := @takeWhile_owner (owners front) (owners rear) (entry.1.docBase, stats)
      document.docId
      (fun other found => by
        obtain ⟨earlier, there, value⟩ := List.mem_filterMap.mp found
        obtain ⟨_, -, rfl⟩ := Option.map_eq_some_iff.mp value
        exact (before earlier there entry List.mem_cons_self).1.trans start)
      start
      (fun other found => by
        -- a segment that starts at the last identifier has none of this field behind a document there
        obtain ⟨later, there, value⟩ := List.mem_filterMap.mp found
        obtain ⟨_, has, rfl⟩ := Option.map_eq_some_iff.mp value
        obtain ⟨-, reach, apart⟩ := ahead later there
        have some_stats : later.1.fieldStats.get? field ≠ none := by
          rw [has]
          exact Option.some_ne_none _
        have in_all : later ∈ filing ++ [(index.active, recent)] := by
          rw [shape]
          exact List.mem_append_right _ (List.mem_cons_of_mem _ there)
        obtain ⟨known_one, one⟩ := List.exists_mem_of_ne_nil _
          ((accounts.all_counts later in_all).present field some_stats)
        obtain ⟨other, within, -⟩ := mem_lengthsAt one
        have room := reach document inside
        have smaller := apart document inside other within
        have fits := other.docId_fits
        have fits' := document.docId_fits
        dsimp only
        omega)
    rw [split]
    simp only [Option.bind_eq_bind, owner, Option.bind_some, getElem?_of_getD encodes byte]
    rw [if_pos (Nat.pos_of_ne_zero encodes), decodeDocLenByte, if_neg encodes]
    rfl

/-- The dictionaries store postings of the documents, in ascending groups. -/
theorem stores (accounts : index.Accounts mapping filing recent)
    (posts : index.Posts settings filing recent) :
    ∃ groups, Stores settings index groups ∧
      AdditionsOf (filing.flatMap Prod.snd ++ recent) groups.flatten := by
  have indexes : ∀ entry ∈ filing ++ [(index.active, recent)], entry.1.Indexes settings entry.2 := by
    intro entry member
    rcases List.mem_append.mp member with member | member
    · exact posts.sealed entry member
    · rw [List.mem_singleton.mp member]
      exact posts.active
  choose! additions served owned using indexes
  refine ⟨(filing ++ [(index.active, recent)]).map additions, ⟨?_, ?_⟩, ?_⟩
  · rw [accounts.segments_eq]
    refine List.forall₂_map_left_iff.mpr (List.forall₂_map_right_iff.mpr ?_)
    exact List.forall₂_same.mpr fun entry member => served entry member
  · rw [Ascending, List.pairwise_map]
    refine accounts.ordered.imp_of_mem fun {entry later} member member' order a inside b inside' => ?_
    obtain ⟨document, listed, has⟩ := owned entry member a inside
    obtain ⟨other, listed', has'⟩ := owned later member' b inside'
    obtain ⟨posting, -, rfl⟩ := List.mem_map.mp has
    obtain ⟨posting', -, rfl⟩ := List.mem_map.mp has'
    exact order.2.2 document listed other listed'
  · intro a member
    obtain ⟨group, listed, inside⟩ := List.mem_flatten.mp member
    obtain ⟨entry, there, rfl⟩ := List.mem_map.mp listed
    obtain ⟨document, within, has⟩ := owned entry there a inside
    refine ⟨document, ?_, has⟩
    have everything : (filing ++ [(index.active, recent)]).flatMap Prod.snd =
        filing.flatMap Prod.snd ++ recent := by simp
    rw [← everything]
    exact List.mem_flatMap.mpr ⟨entry, there, within⟩

end Accounts

theorem length_postingsFor_le {documents : List AnalyzedDocument} {recorded : List Addition}
    (owned : AdditionsOf documents recorded) (field term : String) :
    (postingsFor recorded field term).length ≤
      (documents.filter fun document => document.postsIn field).length := by
  have distinct : ((postingsFor recorded field term).map Prod.fst).Nodup :=
    (postingsFor_ascending recorded field term).imp Nat.ne_of_lt
  have subset : (postingsFor recorded field term).map Prod.fst ⊆
      (documents.filter fun document => document.postsIn field).map AnalyzedDocument.docId := by
    intro docId member
    obtain ⟨a, inside, same, -, rfl⟩ := mem_postingsFor_term member
    obtain ⟨document, listed, has⟩ := owned a inside
    obtain ⟨posting, posted, rfl⟩ := List.mem_map.mp has
    refine List.mem_map.mpr ⟨document, List.mem_filter.mpr ⟨listed, ?_⟩, rfl⟩
    exact List.any_eq_true.mpr ⟨posting, posted, decide_eq_true same⟩
  have bound := (List.subperm_of_subset distinct subset).length_le
  rwa [List.length_map, List.length_map] at bound

end DocumentIndex

end Surch.Index
