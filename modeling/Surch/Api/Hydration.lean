import Surch.Api.LiveSets
import Surch.Lib.TopN
import Mathlib.Data.Prod.Lex

/-! The tail of the exact top-K search: the scored documents are ranked, a window of them is read
back from the store under a lock of its own, and the documents found are zipped with the window. -/
namespace Surch.Api
open Surch.Lib

variable {Digest : Type} {Score : Type} [LinearOrder Score]

/- `scored_pair_ordering`: the higher score first, then the lower number. -/
abbrev Ranked (Score : Type) := Scoreᵒᵈ ×ₗ Nat

namespace Ranked

def of (score : Score) (docId : Nat) : Ranked Score := toLex (OrderDual.toDual score, docId)

def score (ranked : Ranked Score) : Score := OrderDual.ofDual (ofLex ranked).1

def docId (ranked : Ranked Score) : Nat := (ofLex ranked).2

omit [LinearOrder Score] in
@[simp] theorem score_of (score : Score) (docId : Nat) : (of score docId).score = score := rfl

omit [LinearOrder Score] in
@[simp] theorem docId_of (score : Score) (docId : Nat) : (of score docId).docId = docId := rfl

theorem score_le_of_le {first second : Ranked Score} (ordered : first ≤ second) :
    second.score ≤ first.score := by
  rcases Prod.Lex.le_iff.mp ordered with less | ⟨same, _⟩
  · exact le_of_lt less
  · exact le_of_eq (congrArg OrderDual.ofDual same).symm

end Ranked

/- The parts of a request that the tail reads; `source` is its source filter. -/
structure SearchRequest (Score : Type) where
  start : Option Nat
  size : Option Nat
  minScore : Option Score
  source : Value → Option Value

structure StoredDocument where
  docId : Nat
  index : String
  id : String
  source : Value

structure Hit (Score : Type) where
  docId : Nat
  index : String
  id : String
  score : Score
  source : Option Value

structure SearchResponse (Score : Type) where
  hits : List (Hit Score)
  total : Nat
  maxScore : Option Score

def requestedHitWindowLimit (start size : Nat) : Nat :=
  if size ≠ 0 then min (start + size) (2 ^ 64 - 1) else 0

namespace SearchRequest

variable (request : SearchRequest Score)

def startOr : Nat := request.start.getD 0

def sizeOr : Nat := request.size.getD 10

def admits (score : Score) : Bool :=
  match request.minScore with
  | some least => !decide (score < least)
  | none => true

end SearchRequest

structure Ranking (Score : Type) where
  topn : List (Ranked Score)
  total : Nat
  maxScore : Option Score

namespace Ranking

def empty : Ranking Score := ⟨[], 0, none⟩

def offer (request : SearchRequest Score) (ranking : Ranking Score) (scored : Nat × Score) :
    Ranking Score :=
  if request.admits scored.2 then
    { topn := TopN.push (requestedHitWindowLimit request.startOr request.sizeOr) ranking.topn
        (.of scored.2 scored.1)
      total := ranking.total + 1
      maxScore :=
        match ranking.maxScore with
        | some best => if best < scored.2 then some scored.2 else some best
        | none => some scored.2 }
  else ranking

def of (request : SearchRequest Score) (scored : List (Nat × Score)) : Ranking Score :=
  scored.foldl (offer request) empty

def window (request : SearchRequest Score) (ranking : Ranking Score) : List (Ranked Score) :=
  (ranking.topn.drop request.startOr).take request.sizeOr

end Ranking

namespace InMemoryIndex

variable (env : Environment Digest) (data : InMemoryIndex Digest)

/- A document without an identifier or without a source is passed over. -/
def documentByInternalId (index : String) (docId : Nat) : Option (Option StoredDocument) :=
  match data.maps.uidForDocId docId, data.maps.blobForDocId docId with
  | some id, some blob => do
    let source ← parseSourceBlob env data.maps.sourceStore blob
    return some ⟨docId, index, id, source⟩
  | _, _ => some none

def documentsByInternalIds (index : String) (docIds : List Nat) : Option (List StoredDocument) :=
  (docIds.mapM (data.documentByInternalId env index)).map List.reduceOption

end InMemoryIndex

def buildHit (request : SearchRequest Score) (ranked : Ranked Score) (document : StoredDocument) :
    Hit Score where
  docId := document.docId
  index := document.index
  id := document.id
  score := ranked.score
  source := request.source document.source

def buildSearchResponse (request : SearchRequest Score) (ranking : Ranking Score)
    (documents : List StoredDocument) : SearchResponse Score where
  hits := List.zipWith (buildHit request) (ranking.window request) documents
  total := ranking.total
  maxScore := ranking.maxScore

namespace MemoryStore

variable (env : Environment Digest) (store : MemoryStore Digest)

def documentsByInternalIds (index : String) (docIds : List Nat) : Option (List StoredDocument) :=
  match store.indices.get? index with
  | some data => data.documentsByInternalIds env index docIds
  | none => some []

/- The scores were computed under another lock. -/
def finalizeFusedTopk (index : String) (request : SearchRequest Score)
    (scored : SortedMap Nat Score) : Option (SearchResponse Score) := do
  let ranking := Ranking.of request scored.entries
  let documents ← store.documentsByInternalIds env index ((ranking.window request).map Ranked.docId)
  return buildSearchResponse request ranking documents

/- The candidates were resolved under other locks; they are scored and read back under this one. -/
def genericTopk (index : String) (request : SearchRequest Score) (ids : SortedMap Nat Unit)
    (scoreForQuery : InMemoryIndex Digest → Nat → Score) : Option (Option (SearchResponse Score)) :=
  match store.indices.get? index with
  | none => some none
  | some data => do
    let scored := ids.keys.map fun docId => (docId, scoreForQuery data docId)
    let ranking := Ranking.of request scored
    let documents ← data.documentsByInternalIds env index
      ((ranking.window request).map Ranked.docId)
    return some (buildSearchResponse request ranking documents)

end MemoryStore

section Windows

variable (request : SearchRequest Score)

def winners (scored : List (Nat × Score)) : List (Ranked Score) :=
  ((((((scored.filter fun entry => request.admits entry.2).map fun entry =>
    Ranked.of entry.2 entry.1).insertionSort (· ≤ ·)).take
      (requestedHitWindowLimit request.startOr request.sizeOr)).drop request.startOr).take
        request.sizeOr)

theorem offer_topn (scored : List (Nat × Score)) (ranking : Ranking Score) :
    (scored.foldl (Ranking.offer request) ranking).topn =
      ((scored.filter fun entry => request.admits entry.2).map fun entry =>
        Ranked.of entry.2 entry.1).foldl
          (TopN.push (requestedHitWindowLimit request.startOr request.sizeOr)) ranking.topn := by
  induction scored generalizing ranking with
  | nil => rfl
  | cons entry rest ih =>
    rw [List.foldl_cons, ih]
    unfold Ranking.offer
    by_cases admitted : request.admits entry.2 = true
    · rw [if_pos admitted, List.filter_cons, if_pos admitted, List.map_cons, List.foldl_cons]
    · rw [if_neg admitted, List.filter_cons, if_neg admitted]

theorem window_eq_winners (scored : List (Nat × Score)) :
    (Ranking.of request scored).window request = winners request scored := by
  unfold Ranking.window Ranking.of winners
  rw [offer_topn, ← TopN.collect_eq]
  rfl

theorem winners_descending (scored : List (Nat × Score)) :
    (winners request scored).Pairwise fun first second => second.score ≤ first.score := by
  have sorted := List.pairwise_insertionSort (α := Ranked Score) (· ≤ ·)
    ((scored.filter fun entry => request.admits entry.2).map fun entry =>
      Ranked.of entry.2 entry.1)
  have part := sorted.sublist ((List.take_sublist request.sizeOr _).trans
    ((List.drop_sublist request.startOr _).trans
      (List.take_sublist (requestedHitWindowLimit request.startOr request.sizeOr) _)))
  exact part.imp Ranked.score_le_of_le

theorem mem_of_mem_winners {scored : List (Nat × Score)} {winner : Ranked Score}
    (member : winner ∈ winners request scored) : (winner.docId, winner.score) ∈ scored := by
  have member := List.mem_of_mem_take (List.mem_of_mem_drop (List.mem_of_mem_take member))
  rw [List.mem_insertionSort, List.mem_map] at member
  obtain ⟨entry, kept, rfl⟩ := member
  exact List.mem_of_mem_filter kept

end Windows

def IdMaps.standing (maps : IdMaps) (docId : Nat) : Option String :=
  match maps.uidForDocId docId, maps.blobForDocId docId with
  | some id, some _ => some id
  | _, _ => none

def MemoryStore.standing (store : MemoryStore Digest) (index : String) (docId : Nat) :
    Option String :=
  match store.indices.get? index with
  | some data => data.maps.standing docId
  | none => none

section Reading

variable {env : Environment Digest}

theorem documentByInternalId_spec {data : InMemoryIndex Digest} {index : String} {docId : Nat}
    {document : Option StoredDocument}
    (read : data.documentByInternalId env index docId = some document) :
    document.map (fun document => (document.docId, document.id)) =
      (data.maps.standing docId).map fun id => (docId, id) := by
  unfold InMemoryIndex.documentByInternalId at read
  unfold IdMaps.standing
  split at read
  · rename_i id blob found stored
    obtain ⟨source, _, read⟩ := Option.bind_eq_some_iff.mp read
    cases read
    rfl
  · cases read
    rfl

theorem InMemoryIndex.documentsByInternalIds_spec {data : InMemoryIndex Digest} {index : String}
    {docIds : List Nat} {documents : List StoredDocument}
    (read : data.documentsByInternalIds env index docIds = some documents) :
    documents.map (fun document => (document.docId, document.id)) =
      docIds.filterMap fun docId => (data.maps.standing docId).map fun id => (docId, id) := by
  obtain ⟨slots, slots_read, kept⟩ := Option.map_eq_some_iff.mp read
  subst kept
  clear read
  induction docIds generalizing slots with
  | nil =>
    cases slots_read
    rfl
  | cons docId rest ih =>
    rw [List.mapM_cons] at slots_read
    obtain ⟨slot, here, slots_read⟩ := Option.bind_eq_some_iff.mp slots_read
    obtain ⟨later, there, slots_read⟩ := Option.bind_eq_some_iff.mp slots_read
    cases slots_read
    have found := documentByInternalId_spec here
    have others := ih later there
    rw [List.filterMap_cons]
    cases slot with
    | none =>
      rw [← found]
      exact others
    | some document =>
      rw [← found]
      rw [List.reduceOption_cons_of_some, List.map_cons, others]
      rfl

theorem MemoryStore.documentsByInternalIds_spec {store : MemoryStore Digest} {index : String}
    {docIds : List Nat} {documents : List StoredDocument}
    (read : store.documentsByInternalIds env index docIds = some documents) :
    documents.map (fun document => (document.docId, document.id)) =
      docIds.filterMap fun docId => (store.standing index docId).map fun id => (docId, id) := by
  unfold MemoryStore.documentsByInternalIds at read
  unfold MemoryStore.standing
  cases found : store.indices.get? index with
  | some data =>
    rw [found] at read
    exact InMemoryIndex.documentsByInternalIds_spec read
  | none =>
    rw [found] at read
    cases read
    simp

end Reading

section Pairing

variable (request : SearchRequest Score)

omit [LinearOrder Score] in
theorem standing_numbers (standing : Nat → Option String) (window : List (Ranked Score)) :
    ((window.map Ranked.docId).filterMap fun docId =>
        (standing docId).map fun id => (docId, id)).map Prod.fst =
      (window.filter fun winner => (standing winner.docId).isSome).map Ranked.docId := by
  induction window with
  | nil => rfl
  | cons winner rest ih =>
    rw [List.map_cons, List.filterMap_cons, List.filter_cons]
    cases found : standing winner.docId with
    | none => exact ih
    | some id =>
      rw [Option.isSome_some, if_pos rfl, List.map_cons, ← ih]
      rfl

omit [LinearOrder Score] in
theorem forall_hits_document {window : List (Ranked Score)} {documents : List StoredDocument}
    (shorter : documents.length ≤ window.length) (P : Nat → String → Prop) :
    (∀ hit ∈ List.zipWith (buildHit request) window documents, P hit.docId hit.id) ↔
      ∀ document ∈ documents, P document.docId document.id := by
  induction documents generalizing window with
  | nil => simp
  | cons document rest ih =>
    cases window with
    | nil => simp at shorter
    | cons winner others =>
      rw [List.length_cons, List.length_cons, Nat.succ_le_succ_iff] at shorter
      rw [List.zipWith_cons_cons, List.forall_mem_cons, List.forall_mem_cons, ih shorter]
      rfl

omit [LinearOrder Score] in
theorem forall_hits_pair (window : List (Ranked Score)) (documents : List StoredDocument)
    (P : Score → Nat → Prop) :
    (∀ hit ∈ List.zipWith (buildHit request) window documents, P hit.score hit.docId) ↔
      ∀ pair ∈ window.zip (documents.map StoredDocument.docId), P pair.1.score pair.2 := by
  induction documents generalizing window with
  | nil => simp
  | cons document rest ih =>
    cases window with
    | nil => simp
    | cons winner others =>
      rw [List.zipWith_cons_cons, List.map_cons, List.zip_cons_cons, List.forall_mem_cons,
        List.forall_mem_cons, ih]
      rfl

def OwnScore (scored : List (Nat × Score)) (owner : Nat → Option String) (hit : Hit Score) : Prop :=
  (hit.docId, hit.score) ∈ scored ∧ owner hit.docId = some hit.id

/- What still stands under the number of a winner is what was scored under it. -/
def SameOwners (winners : List (Ranked Score)) (owner standing : Nat → Option String) : Prop :=
  ∀ winner ∈ winners, ∀ id, standing winner.docId = some id → owner winner.docId = some id

/- No winner that is gone ranked strictly above one that still stands. -/
def NoneLostAbove (winners : List (Ranked Score)) (standing : Nat → Option String) : Prop :=
  ∀ lost ∈ winners, standing lost.docId = none →
    ∀ kept ∈ winners, standing kept.docId ≠ none → ¬ lost.score > kept.score

theorem aligned_iff {scored : List (Nat × Score)} (unique : (scored.map Prod.fst).Nodup)
    (standing : Nat → Option String) :
    (∀ pair ∈ (winners request scored).zip
        (((winners request scored).filter fun winner => (standing winner.docId).isSome).map
          Ranked.docId), (pair.2, pair.1.score) ∈ scored) ↔
      NoneLostAbove (winners request scored) standing := by
  have aligned := TopN.zip_filter_iff Ranked.score
    (fun winner : Ranked Score => (standing winner.docId).isSome) (winners request scored)
    (winners_descending request scored)
  have own : ∀ pair ∈ (winners request scored).zip ((winners request scored).filter
      fun winner => (standing winner.docId).isSome),
      (pair.2.docId, pair.1.score) ∈ scored ↔ pair.1.score = pair.2.score := by
    intro pair member
    have kept := mem_of_mem_winners request
      (List.mem_of_mem_filter (List.of_mem_zip member).2)
    constructor
    · intro found
      exact congrArg Prod.snd (List.inj_on_of_nodup_map unique found kept rfl)
    · intro same
      rw [same]
      exact kept
  rw [List.zip_map_right, List.forall_mem_map]
  simp only [Prod.map_fst, Prod.map_snd, id]
  rw [forall₂_congr own, aligned]
  unfold NoneLostAbove
  simp only [Option.isSome_eq_false_iff, Option.isNone_iff_eq_none, Option.isSome_iff_ne_none]

theorem own_scores_iff {scored : List (Nat × Score)} (unique : (scored.map Prod.fst).Nodup)
    (owner standing : Nat → Option String) {documents : List StoredDocument}
    (read : documents.map (fun document => (document.docId, document.id)) =
      (((Ranking.of request scored).window request).map Ranked.docId).filterMap fun docId =>
        (standing docId).map fun id => (docId, id)) :
    (∀ hit ∈ (buildSearchResponse request (Ranking.of request scored) documents).hits,
        OwnScore scored owner hit) ↔
      SameOwners (winners request scored) owner standing ∧
        NoneLostAbove (winners request scored) standing := by
  rw [window_eq_winners] at read
  have numbers : documents.map StoredDocument.docId =
      ((winners request scored).filter fun winner =>
        (standing winner.docId).isSome).map Ranked.docId := by
    rw [← standing_numbers, ← read, List.map_map]
    rfl
  have shorter : documents.length ≤ (winners request scored).length := by
    rw [← List.length_map StoredDocument.docId, numbers, List.length_map]
    exact List.length_filter_le _ _
  have owners : (∀ document ∈ documents, owner document.docId = some document.id) ↔
      SameOwners (winners request scored) owner standing := by
    constructor
    · intro all winner member id stands
      have listed : (winner.docId, id) ∈
          documents.map fun document => (document.docId, document.id) := by
        rw [read, List.mem_filterMap]
        exact ⟨winner.docId, List.mem_map_of_mem member, by rw [stands]; rfl⟩
      obtain ⟨document, found, same⟩ := List.mem_map.mp listed
      obtain ⟨number, rfl⟩ := Prod.mk.inj same
      rw [← number]
      exact all document found
    · intro same document found
      have listed := List.mem_map_of_mem (f := fun document : StoredDocument =>
        (document.docId, document.id)) found
      rw [read, List.mem_filterMap] at listed
      obtain ⟨docId, asked, stands⟩ := listed
      obtain ⟨winner, member, rfl⟩ := List.mem_map.mp asked
      obtain ⟨id, stands, equal⟩ := Option.map_eq_some_iff.mp stands
      obtain ⟨number, name⟩ := Prod.mk.inj equal
      rw [← number, ← name]
      exact same winner member id stands
  unfold buildSearchResponse OwnScore
  rw [window_eq_winners, ← owners, ← aligned_iff request unique standing, ← numbers,
    ← forall_hits_document request shorter fun docId id => owner docId = some id,
    ← forall_hits_pair request _ documents fun score docId => (docId, score) ∈ scored]
  constructor
  · intro all
    exact ⟨fun hit member => (all hit member).2, fun hit member => (all hit member).1⟩
  · rintro ⟨owned, scores⟩ hit member
    exact ⟨scores hit member, owned hit member⟩

end Pairing

section Interleaving

variable (env : Environment Digest) (store : MemoryStore Digest) (index : String)
  (request : SearchRequest Score)

/- The fused scorer ran on the store; the winners are read back after further writes. -/
def fusedSearch (scored : SortedMap Nat Score) (between : List StoreAction) :
    Option (MemoryStore Digest × SearchResponse Score) := do
  let later ← storeRun env store between
  let response ← later.finalizeFusedTopk env index request scored
  return (later, response)

/- The candidates were found on the store; they are scored and read back after further writes. -/
def genericSearch (ids : SortedMap Nat Unit) (scoreForQuery : InMemoryIndex Digest → Nat → Score)
    (between : List StoreAction) :
    Option (MemoryStore Digest × Option (SearchResponse Score)) := do
  let later ← storeRun env store between
  let response ← later.genericTopk env index request ids scoreForQuery
  return (later, response)

/-- Whatever is written between the locks of a search: its hits carry their own scores exactly when
the winners that are still there are the documents that were scored, and none that is gone ranked
strictly above one of them. -/
theorem hits_carry_own_scores (between : List StoreAction) :
    (∀ (scored : SortedMap Nat Score) (later : MemoryStore Digest)
        (response : SearchResponse Score),
      fusedSearch env store index request scored between = some (later, response) →
        ((∀ hit ∈ response.hits, OwnScore scored.entries (store.standing index) hit) ↔
          SameOwners (winners request scored.entries) (store.standing index)
              (later.standing index) ∧
            NoneLostAbove (winners request scored.entries) (later.standing index))) ∧
    (∀ (ids : SortedMap Nat Unit) (scoreForQuery : InMemoryIndex Digest → Nat → Score)
        (later : MemoryStore Digest) (response : SearchResponse Score),
      genericSearch env store index request ids scoreForQuery between =
          some (later, some response) →
        ∃ data, later.indices.get? index = some data ∧
          ((∀ hit ∈ response.hits,
              OwnScore (ids.keys.map fun docId => (docId, scoreForQuery data docId))
                (later.standing index) hit) ↔
            NoneLostAbove
              (winners request (ids.keys.map fun docId => (docId, scoreForQuery data docId)))
              (later.standing index))) := by
  constructor
  · intro scored later response searched
    obtain ⟨later', _, searched⟩ := Option.bind_eq_some_iff.mp searched
    obtain ⟨response', finalized, searched⟩ := Option.bind_eq_some_iff.mp searched
    cases searched
    obtain ⟨documents, read, finalized⟩ := Option.bind_eq_some_iff.mp finalized
    cases finalized
    exact own_scores_iff request scored.keys_nodup (store.standing index) (later.standing index)
      (MemoryStore.documentsByInternalIds_spec read)
  · intro ids scoreForQuery later response searched
    obtain ⟨later', _, searched⟩ := Option.bind_eq_some_iff.mp searched
    obtain ⟨response', finalized, searched⟩ := Option.bind_eq_some_iff.mp searched
    cases searched
    unfold MemoryStore.genericTopk at finalized
    cases found : later.indices.get? index with
    | none =>
      rw [found] at finalized
      cases finalized
    | some data =>
      rw [found] at finalized
      obtain ⟨documents, read, finalized⟩ := Option.bind_eq_some_iff.mp finalized
      cases finalized
      have unique : ((ids.keys.map fun docId => (docId, scoreForQuery data docId)).map
          Prod.fst).Nodup := by
        rw [List.map_map]
        exact (List.map_id ids.keys).symm ▸ ids.keys_nodup
      have same : later.standing index = data.maps.standing := by
        funext docId
        unfold MemoryStore.standing
        rw [found]
      have decided := own_scores_iff request unique (later.standing index) (later.standing index)
        (by
          rw [same]
          exact InMemoryIndex.documentsByInternalIds_spec read)
      refine ⟨data, rfl, decided.trans ?_⟩
      exact and_iff_right fun winner member id stands => stands

end Interleaving

section Sample

def rankedActions : List StoreAction :=
  [.write (.indexDocument "books" "1" titledSource) sampleOccasions,
    .write (.indexDocument "books" "2" titledSource) sampleOccasions]

def rankedRequest : SearchRequest Nat := ⟨none, none, none, some⟩

def rankedScores : SortedMap Nat Nat := ⟨[(0, 2), (1, 1)], by decide⟩

def rankedStore : MemoryStore (List UInt8) :=
  (storeRun libraryEnvironment .empty rankedActions).getD .empty

def searchAround (deleted : String) : Option (MemoryStore (List UInt8) × SearchResponse Nat) :=
  fusedSearch libraryEnvironment rankedStore "books" rankedRequest rankedScores
    [.write (.deleteDocument "books" deleted) sampleOccasions]

/-- The lowest winner deleted, the hit that is left has its own score. -/
theorem hits_carry_own_scores_without_last :
    ∃ later response, searchAround "2" = some (later, response) ∧
      response.hits.map (fun hit => (hit.id, hit.score)) = [("1", 2)] ∧
      ∀ hit ∈ response.hits, OwnScore rankedScores.entries (rankedStore.standing "books") hit := by
  have evaluated : (searchAround "2").map (fun found =>
      (found.2.hits.map (fun hit => (hit.id, hit.score)), [0, 1].map (found.1.standing "books"))) =
        some ([("1", 2)], [some "1", none]) := by decide +kernel
  obtain ⟨⟨later, response⟩, searched, views⟩ := Option.map_eq_some_iff.mp evaluated
  obtain ⟨hits, standing⟩ := Prod.mk.inj views
  have owner : rankedStore.standing "books" 0 = some "1" := by decide +kernel
  have ranked : winners rankedRequest rankedScores.entries = [.of 2 0, .of 1 1] := by
    decide +kernel
  simp only [List.map_cons, List.map_nil, List.cons.injEq, and_true] at standing
  refine ⟨later, response, searched, hits, ?_⟩
  refine ((hits_carry_own_scores libraryEnvironment rankedStore "books" rankedRequest _).1
    rankedScores later response searched).mpr ⟨?_, ?_⟩
  · intro winner member id stands
    rw [ranked] at member
    rcases List.mem_pair.mp member with rfl | rfl
    · rw [Ranked.docId_of] at stands ⊢
      rw [owner, ← stands, standing.1]
    · rw [Ranked.docId_of, standing.2] at stands
      cases stands
  · intro lost lost_member gone kept kept_member stands
    rw [ranked] at lost_member kept_member
    rcases List.mem_pair.mp lost_member with rfl | rfl
    · rw [Ranked.docId_of, standing.1] at gone
      cases gone
    · rcases List.mem_pair.mp kept_member with rfl | rfl
      · simp
      · simp

/-- The first winner deleted, the second is answered with the score of the first. -/
theorem deleted_winner_shifts_score :
    ∃ later response, searchAround "1" = some (later, response) ∧
      response.hits.map (fun hit => (hit.docId, hit.id, hit.score)) = [(1, "2", 2)] ∧
      rankedScores.get? 1 = some 1 ∧
      ¬ ∀ hit ∈ response.hits, OwnScore rankedScores.entries (rankedStore.standing "books") hit := by
  have evaluated : (searchAround "1").map (fun found =>
      found.2.hits.map (fun hit => (hit.docId, hit.id, hit.score))) = some [(1, "2", 2)] := by
    decide +kernel
  obtain ⟨⟨later, response⟩, searched, hits⟩ := Option.map_eq_some_iff.mp evaluated
  refine ⟨later, response, searched, hits, by decide, ?_⟩
  intro all
  obtain ⟨hit, listed, same⟩ := List.mem_map.mp (hits ▸ List.mem_singleton.mpr rfl :
    (1, "2", 2) ∈ response.hits.map fun hit => (hit.docId, hit.id, hit.score))
  obtain ⟨number, named⟩ := Prod.mk.inj same
  obtain ⟨_, score⟩ := Prod.mk.inj named
  have own := (all hit listed).1
  rw [number, score] at own
  revert own
  decide

end Sample

end Surch.Api
