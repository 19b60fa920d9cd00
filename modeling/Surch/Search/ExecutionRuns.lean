import Surch.Search.Execution
import Surch.Postings.Parity
import Surch.Postings.SkipIteration

/-! The leapfrog conjunction against the intersection of its lists. A follower consumes the entry
it lands on, so a common document is found exactly when every follower kept pace with the driver. -/
namespace Surch.Search
open Surch.Lib Surch.Lib.Pace Surch.Codec Surch.Postings

def freqOf (postings : PostingsList) (docId : Nat) : Nat :=
  ((postings.docIds.zip postings.freqs).lookup docId).getD 0

def ServesSorted {Digest : Type} (dictionary : TermDictionary Digest) : Prop :=
  ∀ field term postings, dictionary.postingsWithBlockMetas field term = some postings →
    postings.docIds.Pairwise (· < ·) ∧ postings.docIds.length = postings.freqs.length

theorem servesSorted_of_assembled {Digest : Type} {hash : List UInt8 → Digest} {inverted : Inverted}
    {dictionary : TermDictionary Digest} (assembled : Assembled hash false inverted dictionary)
    (fits : InvertedFits inverted) : ServesSorted dictionary := by
  intro field term postings served
  have stored := assembled.postingsWithBlockMetas_memory fits field term
  rw [served] at stored
  obtain ⟨v, found, rfl⟩ := Option.map_eq_some_iff.mp stored.symm
  obtain ⟨terms, fieldPostings, i, -, -, -, field_fits, -, value⟩ := assembled.locate fits found
  obtain ⟨sorted, -⟩ := field_fits.postings v (List.mem_of_getElem? value)
  exact ⟨List.isChain_iff_pairwise.mp sorted.increasing, sorted.aligned⟩

theorem lookup_zip {docIds freqs : List Nat} (ascending : docIds.Pairwise (· < ·))
    (aligned : docIds.length = freqs.length) {i docId : Nat} (found : docIds[i]? = some docId) :
    (docIds.zip freqs).lookup docId = freqs[i]? := by
  induction docIds generalizing freqs i with
  | nil => simp at found
  | cons first docIds ih =>
    obtain ⟨smallest, ascending'⟩ := List.pairwise_cons.mp ascending
    cases freqs with
    | nil => simp at aligned
    | cons freq freqs =>
      cases i with
      | zero =>
        obtain rfl : first = docId := by simpa using found
        simp
      | succ i =>
        have here : docIds[i]? = some docId := by simpa using found
        have other : (docId == first) = false := by
          have above := smallest docId (List.mem_of_getElem? here)
          simp [above.ne']
        have rest := ih ascending' (by simpa using aligned) here
        simpa [List.lookup_cons, other] using rest

theorem getD_eq_freqOf {postings : PostingsList} {docId i : Nat}
    (ascending : postings.docIds.Pairwise (· < ·))
    (aligned : postings.docIds.length = postings.freqs.length)
    (found : postings.docIds[i]? = some docId) :
    postings.freqs.getD i 0 = freqOf postings docId := by
  simp [freqOf, lookup_zip ascending aligned found]

section Followers

/- Where a follower stands after these questions, none of them beyond `last`. -/
structure Standing (postings : PostingsList) (last : Nat) (asked : List Nat)
    (clause : LeapfrogClause) : Prop where
  postings_eq : clause.postings = postings
  docFreq_eq : clause.docFreq = postings.docIds.length
  cursor : ∃ position, Lags postings.docIds last clause.iter position ∧
    Consumed postings.docIds asked position

/- Each follower was asked for what all followers before it answered. -/
inductive AllStanding (last : Nat) : List Nat → List PostingsList → List LeapfrogClause → Prop
  | nil (asked : List Nat) : AllStanding last asked [] []
  | cons {asked : List Nat} {postings : PostingsList} {lists : List PostingsList}
      {clause : LeapfrogClause} {clauses : List LeapfrogClause} :
      Standing postings last asked clause →
      AllStanding last (answered asked postings.docIds) lists clauses →
      AllStanding last asked (postings :: lists) (clause :: clauses)

def LandedOn (docId : Nat) (postings : PostingsList) (clause : LeapfrogClause) : Prop :=
  clause.postings = postings ∧ clause.docFreq = postings.docIds.length ∧
    postings.docIds[clause.iter.position - 1]? = some docId

variable {last docId : Nat} {asked : List Nat} {postings : PostingsList}
  {lists : List PostingsList} {clause : LeapfrogClause} {clauses : List LeapfrogClause}

theorem Standing.later (standing : Standing postings last asked clause) {target : Nat}
    (ordered : last ≤ target) : Standing postings target asked clause := by
  obtain ⟨position, lags, consumed⟩ := standing.cursor
  exact { standing with cursor := ⟨position, lags.later ordered, consumed⟩ }

theorem AllStanding.later (standing : AllStanding last asked lists clauses) {target : Nat}
    (ordered : last ≤ target) : AllStanding target asked lists clauses := by
  induction standing with
  | nil asked => exact .nil asked
  | cons own _ ih => exact .cons (own.later ordered) ih

theorem Standing.advanceTo (standing : Standing postings last asked clause)
    (ascending : postings.docIds.Pairwise (· < ·)) (later : ∀ earlier ∈ asked, earlier < docId)
    (ordered : last ≤ docId) :
    Standing postings docId (asked ++ [docId])
        { clause with iter := (clause.iter.advanceTo docId).2 } ∧
      ((clause.iter.advanceTo docId).1 = some docId ↔
        docId ∈ postings.docIds ∧ KeepsPace asked postings.docIds docId) ∧
      ((clause.iter.advanceTo docId).1 = some docId →
        postings.docIds[(clause.iter.advanceTo docId).2.position - 1]? = some docId) := by
  obtain ⟨position, lags, consumed⟩ := standing.cursor
  obtain ⟨q, rfl, answer, moves, lags'⟩ := advanceTo_spec ascending lags ordered
  constructor
  · exact ⟨standing.postings_eq, standing.docFreq_eq, _, lags', consumed.ask ascending later⟩
  · rw [answer]
    constructor
    · exact consumed.hit_iff ascending later
    · intro found
      simpa [moves (List.getElem?_eq_some_iff.mp found).1] using found

/-- The inner loop asks every follower the earlier ones all answered, and matches exactly when
every follower answers. -/
theorem advanceFollowers_spec (standing : AllStanding last asked lists clauses)
    (ascending : ∀ postings ∈ lists, postings.docIds.Pairwise (· < ·))
    (later : ∀ earlier ∈ asked, earlier < docId) (ordered : last ≤ docId) :
    AllStanding docId (asked ++ [docId]) lists (advanceFollowers docId clauses).2 ∧
      ((advanceFollowers docId clauses).1 = true ↔
        docId ∈ answeredByAll (asked ++ [docId]) (lists.map PostingsList.docIds)) ∧
      ((advanceFollowers docId clauses).1 = true →
        List.Forall₂ (LandedOn docId) lists (advanceFollowers docId clauses).2) := by
  induction standing with
  | nil asked =>
    simp [advanceFollowers, answeredByAll, AllStanding.nil]
  | @cons asked postings lists clause clauses own rest ih =>
    obtain ⟨sorted, ascending'⟩ := List.forall_mem_cons.mp ascending
    obtain ⟨own', hit, place⟩ := own.advanceTo sorted later ordered
    have asked_next := @answered_snoc _ _ asked postings.docIds docId later
    have later' : ∀ earlier ∈ answered asked postings.docIds, earlier < docId :=
      fun earlier member => later earlier (mem_answered.mp member).1
    have step : answeredByAll (asked ++ [docId]) ((postings :: lists).map PostingsList.docIds) =
        answeredByAll (answered (asked ++ [docId]) postings.docIds)
          (lists.map PostingsList.docIds) := rfl
    by_cases landed : (clause.iter.advanceTo docId).1 = some docId
    · obtain ⟨standing', matched, places⟩ := ih ascending' later'
      rw [if_pos (hit.mp landed)] at asked_next
      have unfolded : advanceFollowers docId (clause :: clauses) =
          ((advanceFollowers docId clauses).1,
            { clause with iter := (clause.iter.advanceTo docId).2 } ::
              (advanceFollowers docId clauses).2) := by
        simp [advanceFollowers, landed]
      rw [unfolded, step, asked_next]
      refine ⟨.cons own' (by rwa [asked_next]), matched, fun all => .cons ?_ (places all)⟩
      exact ⟨own.postings_eq, own.docFreq_eq, place landed⟩
    · rw [if_neg (fun held => landed (hit.mpr held)), List.append_nil] at asked_next
      have unfolded : advanceFollowers docId (clause :: clauses) =
          (false, { clause with iter := (clause.iter.advanceTo docId).2 } :: clauses) := by
        cases answer : (clause.iter.advanceTo docId).1 with
        | none => simp [advanceFollowers, answer]
        | some found =>
          have other : found ≠ docId := fun same => landed (by rw [answer, same])
          simp [advanceFollowers, answer, other]
      have unanswered : docId ∉ answeredByAll (asked ++ [docId])
          ((postings :: lists).map PostingsList.docIds) := by
        rw [step, asked_next]
        intro member
        exact lt_irrefl docId (later' docId ((answeredByAll_sublist _ _).subset member))
      rw [unfolded]
      refine ⟨.cons own' ?_, iff_of_false (by simp) unanswered, by simp⟩
      rw [asked_next]
      exact rest.later ordered

end Followers

namespace BooleanQueryExecutor

variable {Digest ε Score : Type} (executor : BooleanQueryExecutor Digest ε Score)

section Opening

def lookup (query : TermQuery) : Option PostingsList :=
  executor.dictionary.postingsWithBlockMetas query.field query.value

def Posts (query : TermQuery) (docId : Nat) : Prop :=
  ∃ postings, executor.lookup query = some postings ∧ docId ∈ postings.docIds

def termLists (queries : List TermQuery) : List PostingsList :=
  (queries.filterMap executor.lookup).mergeSort fun a b => a.docIds.length ≤ b.docIds.length

variable {executor}

theorem openClause_spec (sorted : ServesSorted executor.dictionary) (query : TermQuery) :
    (executor.openClause query = .ok none ∧ ∀ docId, ¬ executor.Posts query docId) ∨
      ∃ clause, executor.openClause query = .ok (some clause) ∧
        executor.lookup query = some clause.postings ∧
        Standing clause.postings 0 [] clause := by
  cases found : executor.lookup query with
  | none =>
    left
    constructor
    · simp only [lookup] at found
      simp [openClause, found]
    · simp [Posts, found]
  | some postings =>
    by_cases empty : postings.docIds = []
    · left
      constructor
      · simp only [lookup] at found
        simp [openClause, found, empty]
      · simp [Posts, found, empty]
    · right
      have ascending := (sorted _ _ _ found).1
      obtain ⟨skipList, built, -⟩ := skipIter_ok ascending empty
      obtain ⟨advanced, position⟩ := skipIter_advanced ascending built
      simp only [lookup] at found
      simp only [openClause, found, List.length_eq_zero_iff, empty, if_false, built]
      refine ⟨_, rfl, rfl, rfl, rfl, 0, ?_, Consumed.start _⟩
      simpa [Advanced] using advanced

theorem openClauses_spec (sorted : ServesSorted executor.dictionary) (queries : List TermQuery) :
    (executor.openClauses queries = .ok none ∧
        ∃ query ∈ queries, ∀ docId, ¬ executor.Posts query docId) ∨
      ∃ clauses, executor.openClauses queries = .ok (some clauses) ∧
        queries.map executor.lookup = clauses.map (fun clause => some clause.postings) ∧
        ∀ clause ∈ clauses, Standing clause.postings 0 [] clause := by
  induction queries with
  | nil => exact .inr ⟨[], rfl, rfl, by simp⟩
  | cons query queries ih =>
    rcases openClause_spec sorted query with ⟨ended, nothing⟩ | ⟨clause, opened, found, standing⟩
    · left
      constructor
      · simp [openClauses, ended]
      · exact ⟨query, by simp, nothing⟩
    · rcases ih with ⟨ended, other, member, nothing⟩ | ⟨clauses, opened', listed, all⟩
      · left
        constructor
        · simp [openClauses, opened, ended, Except.map]
        · exact ⟨other, by simp [member], nothing⟩
      · right
        refine ⟨clause :: clauses, ?_, by simp [found, listed], by simpa using ⟨standing, all⟩⟩
        simp [openClauses, opened, opened', Except.map]

variable {queries : List TermQuery}

theorem mem_termLists {postings : PostingsList} : postings ∈ executor.termLists queries ↔
    ∃ query ∈ queries, executor.lookup query = some postings := by
  simp [termLists, List.mem_filterMap]

theorem posts_iff (listed : ∀ query ∈ queries, (executor.lookup query).isSome) {docId : Nat} :
    (∀ query ∈ queries, executor.Posts query docId) ↔
      ∀ postings ∈ executor.termLists queries, docId ∈ postings.docIds := by
  simp only [mem_termLists, Posts]
  constructor
  · rintro posted postings ⟨query, member, found⟩
    obtain ⟨other, found', inside⟩ := posted query member
    cases found.symm.trans found'
    exact inside
  · intro inside query member
    obtain ⟨postings, found⟩ := Option.isSome_iff_exists.mp (listed query member)
    exact ⟨postings, found, inside postings ⟨query, member, found⟩⟩

end Opening

section Scores

variable [Add Score]

def addScores (docId : Nat) (summed : Score) :
    List PostingsList → Except (TermQueryExecutionError ε) Score
  | [] => .ok summed
  | postings :: rest => do
    let score ← executor.scorePosting postings.docIds.length docId (freqOf postings docId)
    addScores docId (summed + score) rest

variable {executor} {lists : List PostingsList}

theorem addFollowers_eq {docId : Nat} {followers : List LeapfrogClause}
    (landed : List.Forall₂ (LandedOn docId) lists followers)
    (sorted : ∀ postings ∈ lists, postings.docIds.Pairwise (· < ·) ∧
      postings.docIds.length = postings.freqs.length) (summed : Score) :
    executor.addFollowers docId summed followers = executor.addScores docId summed lists := by
  induction landed generalizing summed with
  | nil => rfl
  | @cons postings follower lists followers here _ ih =>
    obtain ⟨⟨ascending, aligned⟩, sorted'⟩ := List.forall_mem_cons.mp sorted
    obtain ⟨rfl, docFreq, place⟩ := here
    have freq := getD_eq_freqOf ascending aligned place
    simp only [addFollowers, addScores, docFreq, freq, ih sorted']

theorem addScores_ok {docId : Nat} (scorable : ∀ postings ∈ lists, ∃ docLen score,
      executor.docLenByDocId.get? docId = some docLen ∧
        executor.bm25Score postings.docIds.length (freqOf postings docId) docLen = .ok score)
    (summed : Score) : ∃ total, executor.addScores docId summed lists = .ok total := by
  induction lists generalizing summed with
  | nil => exact ⟨summed, rfl⟩
  | cons postings lists ih =>
    obtain ⟨⟨docLen, score, known, own⟩, rest⟩ := List.forall_mem_cons.mp scorable
    obtain ⟨total, all⟩ := ih rest (summed + score)
    exact ⟨total, by simp [addScores, scorePosting, known, own, all, bind, Except.bind]⟩

end Scores

variable [Zero Score] [Add Score]

def scored (lists : List PostingsList) (docId : Nat) :
    Except (TermQueryExecutionError ε) (Nat × Score) :=
  (executor.addScores docId 0 lists).map (docId, ·)

variable {executor} {driver : PostingsList} {lists : List PostingsList}

theorem walkDriver_eq {last : Nat} {asked : List Nat} {followers : List LeapfrogClause}
    (standing : AllStanding last asked lists followers)
    (sorted : ∀ postings ∈ lists, postings.docIds.Pairwise (· < ·) ∧
      postings.docIds.length = postings.freqs.length)
    {entries : List (Nat × Nat)} (own : ∀ entry ∈ entries, entry.2 = freqOf driver entry.1)
    (later : ∀ entry ∈ entries, last ≤ entry.1 ∧ ∀ earlier ∈ asked, earlier < entry.1)
    (ascending : entries.Pairwise fun a b => a.1 < b.1) :
    executor.walkDriver driver.docIds.length entries followers =
      ((entries.map Prod.fst).filter fun docId => docId ∈ answeredByAll
        (asked ++ entries.map Prod.fst) (lists.map PostingsList.docIds)).mapM
          (executor.scored (driver :: lists)) := by
  induction entries generalizing last asked followers with
  | nil => rfl
  | cons entry entries ih =>
    obtain ⟨docId, freq⟩ := entry
    obtain ⟨⟨ordered, above⟩, later'⟩ := List.forall_mem_cons.mp later
    obtain ⟨freq_eq, own'⟩ := List.forall_mem_cons.mp own
    obtain ⟨first, ascending'⟩ := List.pairwise_cons.mp ascending
    obtain ⟨standing', matched, landed⟩ :=
      advanceFollowers_spec standing (fun postings member => (sorted postings member).1) above ordered
    have beyond : ∀ earlier ∈ asked ++ [docId], ∀ other ∈ entries.map Prod.fst, earlier < other := by
      simp only [List.forall_mem_append, List.forall_mem_map, List.forall_mem_singleton]
      exact ⟨fun earlier member other inside => (later' other inside).2 earlier member, first⟩
    have rest := ih standing' own' (fun other inside =>
      ⟨(first other inside).le, fun earlier member =>
        beyond earlier member other.1 (List.mem_map_of_mem inside)⟩) ascending'
    rw [List.append_assoc, List.singleton_append] at rest
    have settled := @mem_answeredByAll_append _ _ (asked ++ [docId]) (entries.map Prod.fst) docId
      (lists.map PostingsList.docIds) beyond (by simp)
    rw [List.append_assoc, List.singleton_append, ← matched] at settled
    simp only at freq_eq
    simp only [walkDriver, List.map_cons, List.filter_cons, settled, decide_eq_true_eq, rest]
    cases allMatch : (advanceFollowers docId followers).1 with
    | false => simp
    | true =>
      have summed : ∀ score : Score, executor.addFollowers docId score
          (advanceFollowers docId followers).2 = executor.addScores docId score lists :=
        addFollowers_eq (landed allMatch) sorted
      simp only [summed, freq_eq, if_true, Bool.true_eq_false, if_false, List.mapM_cons, scored,
        addScores]
      cases executor.scorePosting driver.docIds.length docId (freqOf driver docId) with
      | error err => rfl
      | ok score =>
        cases all : executor.addScores docId (0 + score) lists with
        | error err => simp [all, bind, Except.bind, Except.map]
        | ok total => simp [all, bind, Except.bind, Except.map]

def hits : List PostingsList → List Nat
  | [] => []
  | driver :: followers => driver.docIds.filter fun docId =>
      docId ∈ answeredByAll driver.docIds (followers.map PostingsList.docIds)

def InStep (lists : List PostingsList) (docId : Nat) : Prop :=
  match lists with
  | [] => True
  | driver :: followers => PacedThrough docId driver.docIds (followers.map PostingsList.docIds)

theorem mem_hits {docId : Nat} (nonempty : lists ≠ []) :
    docId ∈ hits lists ↔ (∀ postings ∈ lists, docId ∈ postings.docIds) ∧ InStep lists docId := by
  cases lists with
  | nil => exact absurd rfl nonempty
  | cons driver followers =>
    simp only [hits, InStep, List.mem_filter, decide_eq_true_eq, mem_answeredByAll,
      List.forall_mem_cons, List.forall_mem_map]
    tauto

theorem hits_ascending (sorted : ∀ postings ∈ lists, postings.docIds.Pairwise (· < ·)) :
    (hits lists).Pairwise (· < ·) := by
  cases lists with
  | nil => exact List.Pairwise.nil
  | cons driver followers => exact (sorted driver (by simp)).filter _

theorem allStanding_start {clauses : List LeapfrogClause}
    (opened : ∀ clause ∈ clauses, Standing clause.postings 0 [] clause) :
    AllStanding 0 [] (clauses.map LeapfrogClause.postings) clauses := by
  induction clauses with
  | nil => exact .nil []
  | cons clause clauses ih =>
    obtain ⟨first, rest⟩ := List.forall_mem_cons.mp opened
    exact .cons first (ih rest)

theorem runLeapfrog_eq {clauses : List LeapfrogClause}
    (opened : ∀ clause ∈ clauses, Standing clause.postings 0 [] clause)
    (sorted : ∀ clause ∈ clauses, clause.postings.docIds.Pairwise (· < ·) ∧
      clause.postings.docIds.length = clause.postings.freqs.length) :
    executor.runLeapfrog clauses =
      (hits (clauses.map LeapfrogClause.postings)).mapM
        (executor.scored (clauses.map LeapfrogClause.postings)) := by
  cases clauses with
  | nil => rfl
  | cons driver followers =>
    obtain ⟨own, rest⟩ := List.forall_mem_cons.mp opened
    obtain ⟨⟨ascending, aligned⟩, sorted'⟩ := List.forall_mem_cons.mp sorted
    have docs : (driver.postings.docIds.zip driver.postings.freqs).map Prod.fst =
        driver.postings.docIds := List.map_fst_zip aligned.le
    have freqs : ∀ entry ∈ driver.postings.docIds.zip driver.postings.freqs,
        entry.2 = freqOf driver.postings entry.1 := by
      intro entry member
      obtain ⟨i, inside, rfl⟩ := List.getElem_of_mem member
      simp only [List.length_zip, lt_min_iff] at inside
      have freq := getD_eq_freqOf ascending aligned (List.getElem?_eq_getElem inside.1)
      simpa [inside.2] using freq
    have increasing : (driver.postings.docIds.zip driver.postings.freqs).Pairwise
        fun a b => a.1 < b.1 := by
      rw [← List.pairwise_map, docs]
      exact ascending
    have walked : executor.walkDriver driver.postings.docIds.length _ followers = _ :=
      walkDriver_eq (allStanding_start rest) (by simpa using sorted') freqs (by simp) increasing
    simpa [runLeapfrog, hits, docs, own.docFreq_eq] using walked

section Queries

variable (executor)

def Scorable (queries : List TermQuery) : Prop :=
  ∀ postings ∈ executor.termLists queries, ∀ docId ∈ postings.docIds, ∃ docLen score,
    executor.docLenByDocId.get? docId = some docLen ∧
      executor.bm25Score postings.docIds.length (freqOf postings docId) docLen = .ok score

/- The documents of all terms, each once and in order, with their summed scores. -/
structure Intersects (queries : List TermQuery) (out : List (Nat × Score)) : Prop where
  ascending : (out.map Prod.fst).Pairwise (· < ·)
  complete : ∀ docId, docId ∈ out.map Prod.fst ↔ ∀ query ∈ queries, executor.Posts query docId
  summed : ∀ hit ∈ out, executor.addScores hit.1 0 (executor.termLists queries) = .ok hit.2

variable {executor} {queries : List TermQuery}

/-- Either a term has no postings, or the conjunction scores the hits of its lists. -/
theorem leapfrog_eq (sorted : ServesSorted executor.dictionary) (queries : List TermQuery) :
    (executor.leapfrog queries = .ok [] ∧ ∃ query ∈ queries, ∀ docId, ¬ executor.Posts query docId) ∨
      ((∀ query ∈ queries, (executor.lookup query).isSome) ∧
        executor.leapfrog queries = (hits (executor.termLists queries)).mapM
          (executor.scored (executor.termLists queries))) := by
  rcases openClauses_spec sorted queries with ⟨ended, nothing⟩ | ⟨clauses, opened, listed, standing⟩
  · left
    exact ⟨by simp [leapfrog, ended], nothing⟩
  · right
    have lists_eq : queries.filterMap executor.lookup = clauses.map LeapfrogClause.postings := by
      have all := congrArg (List.filterMap id) listed
      simpa [List.filterMap_map, Function.comp_def] using all
    have ordered : ∀ clause ∈ clauses, clause.postings.docIds.Pairwise (· < ·) ∧
        clause.postings.docIds.length = clause.postings.freqs.length := by
      intro clause member
      have inside : some clause.postings ∈ queries.map executor.lookup :=
        listed ▸ List.mem_map_of_mem member
      obtain ⟨query, -, found⟩ := List.mem_map.mp inside
      exact sorted _ _ _ found
    have rarest : (clauses.mergeSort fun a b => a.docFreq ≤ b.docFreq).map LeapfrogClause.postings =
        executor.termLists queries := by
      rw [termLists, lists_eq]
      apply List.map_mergeSort
      intro a inside b inside'
      rw [(standing a inside).docFreq_eq, (standing b inside').docFreq_eq]
    constructor
    · intro query member
      have inside := listed ▸ List.mem_map_of_mem member
      obtain ⟨clause, -, found⟩ := List.mem_map.mp inside
      simp [← found]
    · rw [← rarest]
      simp only [leapfrog, opened]
      apply runLeapfrog_eq
      · exact fun clause member => standing clause (List.mem_mergeSort.mp member)
      · exact fun clause member => ordered clause (List.mem_mergeSort.mp member)

theorem mapM_scored {docs : List Nat}
    (scorable : ∀ docId ∈ docs, ∃ score, executor.addScores docId 0 lists = .ok score) :
    ∃ out, docs.mapM (executor.scored lists) = .ok out ∧ out.map Prod.fst = docs ∧
      ∀ hit ∈ out, executor.addScores hit.1 0 lists = .ok hit.2 := by
  induction docs with
  | nil => exact ⟨[], rfl, rfl, by simp⟩
  | cons docId docs ih =>
    obtain ⟨⟨score, first⟩, rest⟩ := List.forall_mem_cons.mp scorable
    obtain ⟨out, all, docs_eq, scores⟩ := ih rest
    refine ⟨(docId, score) :: out, ?_, by simp [docs_eq], List.forall_mem_cons.mpr ⟨first, scores⟩⟩
    simp [scored, first, all, Except.map, bind, Except.bind, pure, Except.pure]

theorem requireTerms_term (clauseIndex : Nat) (queries : List TermQuery) :
    requireTerms clauseIndex (queries.map Query.term) =
      (.ok queries : Except (BooleanQueryExecutionError ε) (List TermQuery)) := by
  induction queries generalizing clauseIndex with
  | nil => rfl
  | cons query queries ih => simp [requireTerms, ih, bind, Except.bind, pure, Except.pure]

/-- A conjunction of terms answers with the intersection of their lists exactly when, for each
common document, the longer lists keep pace with what is asked of them on the way to it. -/
theorem execute_intersects_iff {query : BooleanQuery} (terms : query.must = queries.map Query.term)
    (sorted : ServesSorted executor.dictionary) (scorable : executor.Scorable queries) :
    (∃ out, executor.execute query = .ok out ∧ executor.Intersects queries out) ↔
      ∀ docId, (∀ query ∈ queries, executor.Posts query docId) →
        InStep (executor.termLists queries) docId := by
  have executed : executor.execute query = (executor.leapfrog queries).mapError .term := by
    simp [execute, terms, requireTerms_term]
  rcases leapfrog_eq sorted queries with ⟨ended, lacking, member, nothing⟩ | ⟨listed, run⟩
  · constructor
    · intro _ docId common
      exact absurd (common lacking member) (nothing docId)
    · intro _
      refine ⟨[], by simp [executed, ended, Except.mapError], List.Pairwise.nil, ?_, by simp⟩
      intro docId
      simp only [List.map_nil, List.not_mem_nil, false_iff]
      exact fun common => nothing docId (common lacking member)
  · have nonempty : executor.termLists queries ≠ [] := by
      obtain ⟨first, member⟩ := List.exists_mem_of_ne_nil query.must query.nonempty
      rw [terms] at member
      obtain ⟨term, inside, -⟩ := List.mem_map.mp member
      obtain ⟨postings, found⟩ := Option.isSome_iff_exists.mp (listed term inside)
      exact List.ne_nil_of_mem (mem_termLists.mpr ⟨term, inside, found⟩)
    have common_scored : ∀ docId ∈ hits (executor.termLists queries),
        ∃ score, executor.addScores docId 0 (executor.termLists queries) = .ok score := by
      intro docId hit
      have inside := ((mem_hits nonempty).mp hit).1
      exact addScores_ok (fun postings member => scorable postings member docId (inside _ member)) 0
    obtain ⟨out, scored, docs, scores⟩ := mapM_scored common_scored
    have answer : executor.execute query = .ok out := by
      simp [executed, run, scored, Except.mapError]
    have found : ∀ docId, docId ∈ out.map Prod.fst ↔
        (∀ query ∈ queries, executor.Posts query docId) ∧
          InStep (executor.termLists queries) docId := by
      intro docId
      rw [docs, mem_hits nonempty, posts_iff listed]
    constructor
    · rintro ⟨out', answer', intersects⟩ docId common
      cases answer.symm.trans answer'
      exact ((found docId).mp ((intersects.complete docId).mpr common)).2
    · intro in_step
      refine ⟨out, answer, ?_, ?_, scores⟩
      · rw [docs]
        apply hits_ascending
        intro postings member
        obtain ⟨query, -, served⟩ := mem_termLists.mp member
        exact (sorted _ _ _ served).1
      · intro docId
        rw [found docId]
        exact ⟨fun both => both.1, fun common => ⟨common, in_step docId common⟩⟩

end Queries

section RedAndWine

def redAndWineAdditions : List Addition := [
  ⟨"body", "red", 5, [0], by decide⟩, ⟨"body", "red", 7, [0], by decide⟩,
  ⟨"body", "wine", 7, [1], by decide⟩, ⟨"body", "wine", 9, [0], by decide⟩,
  ⟨"body", "wine", 11, [0], by decide⟩]

def redAndWine : BooleanQueryExecutor Unit Unit Nat where
  dictionary := (PostingsBuilder.new.addAll redAndWineAdditions).buildWithLimit (fun _ => ())
    .reliable false 0
  docLenByDocId := ⟨[(5, 1), (7, 2), (9, 1), (11, 1)], by decide⟩
  bm25Score _ _ _ := .ok 1

def red : TermQuery := ⟨"body", "red"⟩

def wine : TermQuery := ⟨"body", "wine"⟩

def redAndWineQuery : BooleanQuery := ⟨[.term red, .term wine], List.cons_ne_nil _ _⟩

theorem redAndWine_lookups :
    redAndWine.lookup red = some ⟨[5, 7], [1, 1], [⟨1⟩], none⟩ ∧
      redAndWine.lookup wine = some ⟨[7, 9, 11], [1, 1, 1], [⟨1⟩], none⟩ ∧
      ∀ entry ∈ (PostingsBuilder.new.addAll redAndWineAdditions).invert.entries,
        (entry.2.entries.map fun entry => entry.2.1.length).sum < 2 ^ 32 := by
  decide +kernel

theorem redAndWine_sorted : ServesSorted redAndWine.dictionary := by
  have small := redAndWine_lookups.2.2
  have addressable : Addressable false (PostingsBuilder.new.addAll redAndWineAdditions).invert := by
    constructor
    · intro name terms found
      exact small (name, terms) ((SortedMap.get?_eq_some_iff _ _ _).mp found)
    · simp
  exact servesSorted_of_assembled (buildWithLimit_assembled _ _ _ _ _) addressable.fits

theorem redAndWine_termLists : redAndWine.termLists [red, wine] =
    [⟨[5, 7], [1, 1], [⟨1⟩], none⟩, ⟨[7, 9, 11], [1, 1, 1], [⟨1⟩], none⟩] := by
  obtain ⟨redFound, wineFound, -⟩ := redAndWine_lookups
  simp only [termLists, List.filterMap_cons, redFound, wineFound, List.filterMap_nil]
  apply List.mergeSort_of_pairwise
  simp

theorem redAndWine_scorable : redAndWine.Scorable [red, wine] := by
  have known : ∀ postings ∈ redAndWine.termLists [red, wine], ∀ docId ∈ postings.docIds,
      (redAndWine.docLenByDocId.get? docId).isSome := by
    rw [redAndWine_termLists]
    decide
  intro postings member docId inside
  obtain ⟨docLen, found⟩ := Option.isSome_iff_exists.mp (known postings member docId inside)
  exact ⟨docLen, 1, found, rfl⟩

/- The document with both terms is consumed when the second list is asked for the one before. -/
theorem not_execute_intersects :
    ¬ ∀ (executor : BooleanQueryExecutor Unit Unit Nat) (query : BooleanQuery)
      (queries : List TermQuery), query.must = queries.map Query.term →
        ServesSorted executor.dictionary → executor.Scorable queries →
          ∃ out, executor.execute query = .ok out ∧ executor.Intersects queries out := by
  intro always
  obtain ⟨out, answer, intersects⟩ := always redAndWine redAndWineQuery [red, wine] rfl
    redAndWine_sorted redAndWine_scorable
  have nothing : redAndWine.execute redAndWineQuery = .ok [] := by
    have executed : redAndWine.execute redAndWineQuery =
        (redAndWine.leapfrog [red, wine]).mapError .term := rfl
    rcases leapfrog_eq redAndWine_sorted [red, wine] with ⟨ended, -⟩ | ⟨-, run⟩
    · simp [executed, ended, Except.mapError]
    · have none_hit : hits (redAndWine.termLists [red, wine]) = [] := by
        rw [redAndWine_termLists]
        decide
      rw [none_hit] at run
      rw [executed, run]
      rfl
  cases nothing.symm.trans answer
  have both : ∀ query ∈ [red, wine], redAndWine.Posts query 7 := by
    obtain ⟨redFound, wineFound, -⟩ := redAndWine_lookups
    simp [Posts, redFound, wineFound]
  simpa using (intersects.complete 7).mpr both

theorem execute_intersects_iff_redAndWine :
    (∃ out, redAndWine.execute redAndWineQuery = .ok out ∧
        redAndWine.Intersects [red, wine] out) ↔
      ∀ docId, (∀ query ∈ [red, wine], redAndWine.Posts query docId) →
        InStep (redAndWine.termLists [red, wine]) docId :=
  execute_intersects_iff rfl redAndWine_sorted redAndWine_scorable

end RedAndWine

end BooleanQueryExecutor

end Surch.Search
