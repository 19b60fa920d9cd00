import Surch.Api.FusedScores
import Surch.Api.Queries

/-! The candidates of the queries that are reduced to their leaves: exactly the documents that
satisfy every leaf. -/
namespace Surch.Api
open Surch.Lib Surch.Postings Surch.Index

variable {Digest : Type}

def Exactly (docIds : List Nat) (P : Nat → Prop) : Prop :=
  docIds.Pairwise (· < ·) ∧ ∀ docId, docId ∈ docIds ↔ P docId

theorem Exactly.btreeSet_eq {docIds : List Nat} {P : Nat → Prop} (set : Exactly docIds P) :
    btreeSet docIds = docIds := btreeSet_of_ascending set.1

theorem Exactly.congr {docIds : List Nat} {P Q : Nat → Prop} (set : Exactly docIds P)
    (same : ∀ docId, P docId ↔ Q docId) : Exactly docIds Q :=
  ⟨set.1, fun docId => (set.2 docId).trans (same docId)⟩

section Hits

variable {settings : Settings Digest} {mapping : IndexMapping} {index : DocumentIndex Digest}
  {groups : List (List Addition)}

theorem termDocIds_eq (stores : Stores settings index groups) (field term : String) :
    termDocIds index field term = docsOf groups.flatten (field, term) := by
  rw [termDocIds]
  split
  · rename_i onDisk
    have decoded := decoded_docs stores onDisk (field, term)
    cases found : index.decodeFromSegment field term with
    | none =>
      simp only [found] at decoded
      exact decoded.symm
    | some v =>
      simp only [found] at decoded
      exact decoded
  · rename_i inMemory
    rw [stores.postings_resident (Bool.eq_false_iff.mpr inMemory), docsOf, postingsFor]
    cases found : find (PostingsBuilder.new.addAll groups.flatten).invert field term with
    | none =>
      rw [storedEntries_none found]
      rfl
    | some v =>
      rw [storedEntries_some found, entries_docs (invert_isPostings found).1]
      rfl

theorem terms_empty (unicode : Unicode) (analyzer : AnalyzerName) :
    analyzer.terms unicode "" = [] := by
  cases analyzer <;> rfl

theorem normalizedTermsForField_empty (unicode : Unicode) (field : String)
    (mapping : IndexMapping) : normalizedTermsForField unicode "" field mapping = [] := by
  have custom : ∀ name, mapping.customTerms unicode name "" = [] := by
    intro name
    rw [IndexMapping.customTerms]
    cases mapping.analysis.resolveAnalyzer unicode name with
    | none => rfl
    | some analyzer =>
      cases analyzer with
      | builtin name => exact terms_empty unicode name
      | edgeNgram minGram maxGram lowercase asciifold =>
        have no_gram : unicode.edgeNgramTokens minGram maxGram "" = [] := by
          rw [Unicode.edgeNgramTokens]
          split <;> rfl
        rw [Option.map_some, Option.getD_some, ResolvedAnalyzer.terms, no_gram, List.map_nil]
  rw [normalizedTermsForField, IndexMapping.customSearchTermsForField]
  cases mapping.resolveField field with
  | none => exact terms_empty unicode _
  | some fieldMapping =>
    simp only [Option.bind_eq_bind, Option.bind_some]
    split <;> simp [custom, terms_empty]

theorem matchLoop_spec (stores : Stores settings index groups) (field : String)
    (requireAll : Bool) (terms : List String) {met : List Nat} (ascending : met.Pairwise (· < ·)) :
    ∃ docIds, matchLoop index field requireAll (some met) terms = some docIds ∧
      Exactly docIds fun docId =>
        if requireAll then
          docId ∈ met ∧ ∀ term ∈ terms, docId ∈ docsOf groups.flatten (field, term)
        else docId ∈ met ∨ ∃ term ∈ terms, docId ∈ docsOf groups.flatten (field, term) := by
  induction terms generalizing met with
  | nil => exact ⟨met, rfl, ascending, fun docId => by split <;> simp⟩
  | cons term rest ih =>
    rw [matchLoop, termDocIds_eq stores, btreeSet_of_ascending (docsOf_ascending _ _)]
    cases requireAll with
    | true =>
      simp only [if_true, Bool.true_and]
      split
      · rename_i nothing
        rw [List.isEmpty_iff] at nothing
        refine ⟨_, rfl, by rw [nothing]; exact .nil, fun docId => ?_⟩
        have gone : docId ∉ met.filter fun docId =>
            (docsOf groups.flatten (field, term)).contains docId := by
          rw [nothing]
          exact List.not_mem_nil
        rw [iff_false_left gone]
        rintro ⟨kept, all⟩
        exact gone (List.mem_filter.mpr
          ⟨kept, List.contains_iff_mem.mpr (all term List.mem_cons_self)⟩)
      · obtain ⟨docIds, looped, set⟩ := ih (ascending.filter _)
        refine ⟨docIds, looped, set.congr fun docId => ?_⟩
        simp only [if_true, List.mem_filter, List.contains_iff_mem, List.forall_mem_cons, and_assoc]
    | false =>
      simp only [Bool.false_eq_true, if_false, Bool.false_and]
      obtain ⟨docIds, looped, set⟩ := ih (btreeSet_ascending _)
      refine ⟨docIds, looped, set.congr fun docId => ?_⟩
      simp only [Bool.false_eq_true, if_false, mem_btreeSet, List.mem_append, List.exists_mem_cons_iff,
        or_assoc]

theorem matchHitsInternal_spec (stores : Stores settings index groups) (field value : String)
    (requireAll : Bool) :
    Exactly (matchHitsInternal settings mapping index field value requireAll)
      (Satisfies settings mapping groups.flatten ⟨field, value, requireAll⟩) := by
  have nothing : (∀ docId, ¬ Satisfies settings mapping groups.flatten ⟨field, value, requireAll⟩ docId) →
      Exactly [] (Satisfies settings mapping groups.flatten ⟨field, value, requireAll⟩) :=
    fun none_found => ⟨.nil, fun docId =>
      iff_of_false List.not_mem_nil (none_found docId)⟩
  rw [matchHitsInternal]
  split
  · rename_i guarded
    refine nothing fun docId => ?_
    rcases (Bool.or_eq_true _ _).mp guarded with blank | empty
    · have unknown : ∀ term, docsOf groups.flatten (field, term) = [] := by
        intro term
        rw [docsOf, postingsFor_blank _ (.inl blank)]
        rfl
      simp only [Satisfies, unknown]
      split
      · rintro ⟨some_term, all⟩
        obtain ⟨term, member⟩ := List.exists_mem_of_ne_nil _ some_term
        exact absurd (all term member) List.not_mem_nil
      · rintro ⟨term, -, member⟩
        exact absurd member List.not_mem_nil
    · obtain rfl : value = "" := String.isEmpty_iff.mp empty
      simp [Satisfies, normalizedTermsForField_empty]
  · cases resolved : normalizedTermsForField settings.unicode value field mapping with
    | nil =>
      refine nothing fun docId => ?_
      simp [Satisfies, resolved]
    | cons term rest =>
      cases rest with
      | nil =>
        simp only [termDocIds_eq stores]
        refine ⟨docsOf_ascending _ _, fun docId => ?_⟩
        simp [Satisfies, resolved]
      | cons second rest =>
        dsimp only
        rw [matchLoop, termDocIds_eq stores, btreeSet_of_ascending (docsOf_ascending _ _)]
        split
        · rename_i ended
          obtain ⟨rfl, empty⟩ := (Bool.and_eq_true _ _).mp ended
          rw [List.isEmpty_iff] at empty
          rw [empty]
          refine nothing fun docId => ?_
          simp [Satisfies, resolved, empty]
        · obtain ⟨docIds, looped, set⟩ := matchLoop_spec stores field requireAll (second :: rest)
            (docsOf_ascending groups.flatten (field, term))
          rw [looped]
          refine set.congr fun docId => ?_
          simp only [Satisfies, resolved]
          split <;> simp

end Hits

section Shapes

variable {F : Type}

inductive Reduced : SearchQuery F → Prop
  | leaf (field value : String) (operator : MatchOperator) : Reduced (.matchField field value operator)
  | wrapper {inner : SearchQuery F} (scoreMode : ScoreMode) (boostMode : BoostMode) :
      Reduced inner → Reduced (.functionScore inner 1 [] scoreMode boostMode)
  | single {clause : SearchQuery F} (minimumShouldMatch : Nat) :
      Reduced clause → Reduced (.bool [clause] [] [] [] minimumShouldMatch 1)
  | all {should : List (SearchQuery F)} : should ≠ [] → (∀ clause ∈ should, Reduced clause) →
      Reduced (.bool [] [] [] should should.length 1)

mutual

def matchLeaves : SearchQuery F → List MatchClause
  | .matchField field value operator => [⟨field, value, operator = .and⟩]
  | .bool must _ _ should _ _ => leavesOfAll must ++ leavesOfAll should
  | .functionScore inner _ _ _ _ => matchLeaves inner
  | _ => []

def leavesOfAll : List (SearchQuery F) → List MatchClause
  | [] => []
  | query :: rest => matchLeaves query ++ leavesOfAll rest

end

def MatchClause.pair (clause : MatchClause) : String × String := (clause.field, clause.value)

theorem leavesOfAll_eq (queries : List (SearchQuery F)) :
    leavesOfAll queries = queries.flatMap matchLeaves := by
  induction queries with
  | nil => rfl
  | cons query rest ih => rw [leavesOfAll, ih, List.flatMap_cons]

mutual

/-- A query that is reduced has one of the shapes, and its leaves are what comes out. -/
theorem reduced_of_reduce (query : SearchQuery F) {leaves : List (String × String)}
    (reduced : query.reduceDecesConjunctionInto = some leaves) :
    Reduced query ∧ leaves = (matchLeaves query).map MatchClause.pair := by
  cases query with
  | matchField field value operator =>
    cases reduced
    exact ⟨.leaf field value operator, rfl⟩
  | functionScore inner boost functions scoreMode boostMode =>
    rw [SearchQuery.reduceDecesConjunctionInto] at reduced
    split at reduced
    · rename_i plain
      obtain ⟨empty, rfl⟩ := plain
      obtain rfl := List.isEmpty_iff.mp empty
      obtain ⟨shape, same⟩ := reduced_of_reduce inner reduced
      exact ⟨.wrapper scoreMode boostMode shape, same⟩
    · cases reduced
  | bool must filter mustNot should minimumShouldMatch boost =>
    unfold SearchQuery.reduceDecesConjunctionInto at reduced
    split at reduced
    · cases reduced
    · rename_i plain
      simp only [not_or, ne_eq, not_not, Bool.not_eq_true', Bool.not_eq_false, List.isEmpty_iff]
        at plain
      obtain ⟨rfl, rfl, rfl⟩ := plain
      split at reduced
      · rename_i empty
        obtain rfl := List.isEmpty_iff.mp empty
        split at reduced
        · rename_i clause
          obtain ⟨shape, same⟩ := reduced_of_reduce clause reduced
          refine ⟨.single minimumShouldMatch shape, ?_⟩
          rw [matchLeaves, leavesOfAll, leavesOfAll, leavesOfAll, List.append_nil, List.append_nil]
          exact same
        · cases reduced
      · rename_i some_should
        split at reduced
        · rename_i conjunctive
          obtain ⟨empty, rfl⟩ := conjunctive
          obtain rfl := List.isEmpty_iff.mp empty
          obtain ⟨shapes, same⟩ := reduced_of_reduceAll should reduced
          refine ⟨.all (by simpa using some_should) shapes, ?_⟩
          rw [matchLeaves, leavesOfAll, List.nil_append]
          exact same
        · cases reduced
  | _ => cases reduced

theorem reduced_of_reduceAll : (queries : List (SearchQuery F)) →
    {leaves : List (String × String)} → SearchQuery.reduceAll queries = some leaves →
    (∀ query ∈ queries, Reduced query) ∧
      leaves = (leavesOfAll queries).map MatchClause.pair
  | [], leaves, reduced => by
    cases reduced
    exact ⟨by simp, rfl⟩
  | query :: rest, leaves, reduced => by
    rw [SearchQuery.reduceAll] at reduced
    obtain ⟨first, found, later⟩ := Option.bind_eq_some_iff.mp reduced
    obtain ⟨others, found', built⟩ := Option.bind_eq_some_iff.mp later
    cases built
    obtain ⟨shape, same⟩ := reduced_of_reduce query found
    obtain ⟨shapes, same'⟩ := reduced_of_reduceAll rest found'
    refine ⟨List.forall_mem_cons.mpr ⟨shape, shapes⟩, ?_⟩
    rw [leavesOfAll, List.map_append, ← same, ← same']

end

end Shapes

section Sets

variable {sets : List (List Nat)}

theorem intersectSets_some (sets : List (List Nat)) {met : List Nat}
    (ascending : met.Pairwise (· < ·)) :
    ∃ ids, intersectSets (some met) sets = some ids ∧
      Exactly ids fun docId => docId ∈ met ∧ ∀ set ∈ sets, docId ∈ set := by
  induction sets generalizing met with
  | nil => exact ⟨met, rfl, ascending, by simp⟩
  | cons current rest ih =>
    rw [intersectSets]
    have met_iff : ∀ docId, docId ∈ met.filter (fun docId => current.contains docId) ↔
        docId ∈ met ∧ docId ∈ current := by
      intro docId
      rw [List.mem_filter, List.contains_iff_mem]
    split
    · rename_i nothing
      rw [List.isEmpty_iff] at nothing
      refine ⟨_, rfl, ascending.filter _, fun docId => ?_⟩
      have gone : docId ∉ met.filter fun docId => current.contains docId := by
        rw [nothing]
        exact List.not_mem_nil
      rw [iff_false_left gone]
      rintro ⟨kept, all⟩
      exact gone ((met_iff docId).mpr ⟨kept, all current List.mem_cons_self⟩)
    · obtain ⟨ids, met_all, exact_ids⟩ := ih (ascending.filter fun docId => current.contains docId)
      refine ⟨ids, met_all, exact_ids.congr fun docId => ?_⟩
      rw [met_iff, List.forall_mem_cons, and_assoc]

theorem intersectSets_spec (nonempty : sets ≠ [])
    (ascending : ∀ set ∈ sets, set.Pairwise (· < ·)) :
    ∃ ids, intersectSets none (sets.insertionSort fun a b => a.length ≤ b.length) = some ids ∧
      Exactly ids fun docId => ∀ set ∈ sets, docId ∈ set := by
  have perm := List.perm_insertionSort (fun a b : List Nat => a.length ≤ b.length) sets
  have same : ∀ docId, (∀ set ∈ sets.insertionSort fun a b => a.length ≤ b.length, docId ∈ set) ↔
      ∀ set ∈ sets, docId ∈ set := fun docId => forall_congr' fun set => by rw [perm.mem_iff]
  cases sorted : sets.insertionSort fun a b => a.length ≤ b.length with
  | nil =>
    rw [sorted] at perm
    exact absurd perm.nil_eq.symm nonempty
  | cons first rest =>
    rw [sorted] at perm same
    have first_ascending := ascending first (perm.mem_iff.mp List.mem_cons_self)
    rw [intersectSets]
    split
    · rename_i nothing
      rw [List.isEmpty_iff] at nothing
      refine ⟨first, rfl, first_ascending, fun docId => Iff.trans ?_ (same docId)⟩
      simp [nothing]
    · obtain ⟨ids, met_all, exact_ids⟩ := intersectSets_some rest first_ascending
      refine ⟨ids, met_all, exact_ids.congr fun docId => ?_⟩
      rw [← same, List.forall_mem_cons]

end Sets

section Candidates

variable {F : Type} {settings : Settings Digest} {mapping : IndexMapping}
  {index : DocumentIndex Digest} {groups : List (List Addition)}

theorem flatPair_leaves {required : List (SearchQuery F)} {pairs : List (String × String)}
    (shapes : ∀ clause ∈ required, Reduced clause) (flat : required.mapM flatPair = some pairs) :
    required.mapM flatMatch = some (required.flatMap matchLeaves) ∧
      pairs = (required.flatMap matchLeaves).map MatchClause.pair := by
  induction required generalizing pairs with
  | nil =>
    cases flat
    exact ⟨rfl, rfl⟩
  | cons clause rest ih =>
    obtain ⟨shape, shapes⟩ := List.forall_mem_cons.mp shapes
    rw [List.mapM_cons] at flat
    obtain ⟨pair, first, later⟩ := Option.bind_eq_some_iff.mp flat
    obtain ⟨others, found, built⟩ := Option.bind_eq_some_iff.mp later
    cases built
    obtain ⟨matched, same⟩ := ih shapes found
    cases shape with
    | leaf field value operator =>
      cases first
      rw [List.mapM_cons, matched, same]
      exact ⟨rfl, rfl⟩
    | wrapper => cases first
    | single => cases first
    | all => cases first

variable [DecidableEq Digest]

theorem flatCandidates_spec (stores : Stores settings index groups) {required : List (SearchQuery F)}
    (shapes : ∀ clause ∈ required, Reduced clause) {ids : List Nat}
    (answered : flatCandidates settings mapping index required = some ids) :
    Exactly ids fun docId => ∀ clause ∈ required.flatMap matchLeaves,
      Satisfies settings mapping groups.flatten clause docId := by
  rw [flatCandidates] at answered
  obtain ⟨pairs, flat, answered⟩ := Option.bind_eq_some_iff.mp answered
  obtain ⟨matched, same⟩ := flatPair_leaves shapes flat
  split at answered
  · cases answered
  rename_i several
  cases leapt : conjunctionLeapfrog settings mapping index pairs with
  | some hits =>
    rw [leapt] at answered
    cases answered
    obtain ⟨terms, singles, rfl⟩ := Option.map_eq_some_iff.mp leapt
    have nonempty : pairs ≠ [] := by
      rintro rfl
      simp at several
    have set : Exactly (conjunctionHitsInternal settings.hash index terms) fun docId =>
        ∀ clause ∈ pairs, Satisfies settings mapping groups.flatten ⟨clause.1, clause.2, false⟩ docId := by
      rw [conjunctionHitsInternal_eq stores]
      exact ⟨common_ascending listsOf_ascending, mem_common_of_singles singles nonempty⟩
    rw [set.btreeSet_eq]
    refine set.congr fun docId => ?_
    rw [same, List.forall_mem_map]
    refine forall₂_congr fun clause member => ?_
    -- every clause has one term, so its operator does not matter
    have listed : clause.pair ∈ pairs := by
      rw [same]
      exact List.mem_map_of_mem member
    obtain ⟨i, here⟩ := List.mem_iff_getElem?.mp listed
    obtain ⟨term, -, single⟩ := forall₂_getElem? (forall₂_of_mapM singles) here
    exact (satisfies_single single false docId).trans
      (satisfies_single single clause.requireAll docId).symm
  | none =>
    rw [leapt] at answered
    obtain ⟨clauses, found, answered⟩ := Option.bind_eq_some_iff.mp answered
    obtain ⟨hits, met, built⟩ := Option.bind_eq_some_iff.mp answered
    cases built
    rw [matched] at found
    cases found
    have set : Exactly hits _ := conjunctionOfMatches_spec stores met
    rw [set.btreeSet_eq]
    exact set

theorem candidateSets_some {P : SearchQuery F → Nat → Prop} {queries : List (SearchQuery F)}
    (each : ∀ query ∈ queries, ∃ ids, postingCandidateIds settings mapping index query = some ids ∧
      Exactly ids (P query)) :
    ∃ sets : List (List Nat), candidateSets settings mapping index queries = sets.map some ∧
      List.Forall₂ (fun query ids => Exactly ids (P query)) queries sets := by
  induction queries with
  | nil => exact ⟨[], rfl, .nil⟩
  | cons query rest ih =>
    obtain ⟨first, others⟩ := List.forall_mem_cons.mp each
    obtain ⟨ids, found, set⟩ := first
    obtain ⟨sets, found', later⟩ := ih others
    refine ⟨ids :: sets, ?_, .cons set later⟩
    rw [candidateSets, found, found', List.map_cons]

/-- The candidates of a reduced query are the documents that satisfy all its leaves. -/
theorem candidates_spec (stores : Stores settings index groups) {query : SearchQuery F}
    (reduced : Reduced query) :
    ∃ ids, postingCandidateIds settings mapping index query = some ids ∧
      Exactly ids fun docId => ∀ clause ∈ matchLeaves query,
        Satisfies settings mapping groups.flatten clause docId := by
  induction reduced with
  | leaf field value operator =>
    have set := @matchHitsInternal_spec Digest settings mapping index groups stores field value
      (operator = .and)
    refine ⟨_, rfl, ?_⟩
    rw [set.btreeSet_eq]
    refine set.congr fun docId => ?_
    rw [matchLeaves, List.forall_mem_singleton]
  | wrapper scoreMode boostMode _ ih => exact ih
  | @single clause minimumShouldMatch shape ih =>
    obtain ⟨ids, found, set⟩ := ih
    have leaves : matchLeaves (.bool [clause] [] [] [] minimumShouldMatch 1) =
        [clause].flatMap matchLeaves := by
      rw [matchLeaves, leavesOfAll_eq, leavesOfAll, List.append_nil]
    rw [postingCandidateIds, leaves]
    cases direct : (requiredClauses [clause] [] [] minimumShouldMatch).bind
        (flatCandidates settings mapping index) with
    | some ids' =>
      exact ⟨ids', rfl, flatCandidates_spec stores (by simpa using shape) direct⟩
    | none =>
      obtain ⟨ids', met, exact_ids⟩ := @intersectSets_spec [ids] (by simp) (by simpa using set.1)
      refine ⟨ids', ?_, exact_ids.congr fun docId => ?_⟩
      · rw [← met]
        simp [candidateSets, found, boolCandidates, List.reduceOption]
      · rw [List.forall_mem_singleton, set.2, List.flatMap_singleton]
  | @all should some_should shapes ih =>
    have leaves : matchLeaves (.bool [] [] [] should should.length 1) =
        should.flatMap matchLeaves := by
      rw [matchLeaves, leavesOfAll, List.nil_append, leavesOfAll_eq]
    rw [postingCandidateIds, leaves]
    cases direct : (requiredClauses [] [] should should.length).bind
        (flatCandidates settings mapping index) with
    | some ids' =>
      rw [requiredClauses, if_neg (by simpa using some_should), if_pos rfl] at direct
      exact ⟨ids', rfl, flatCandidates_spec stores shapes direct⟩
    | none =>
      obtain ⟨sets, found, each⟩ := candidateSets_some ih
      have size := each.length_eq
      have some_set : sets ≠ [] := by
        rintro rfl
        exact some_should (List.length_eq_zero_iff.mp size)
      have sets_iff : ∀ docId, (∀ set ∈ sets, docId ∈ set) ↔ ∀ query ∈ should,
          ∀ clause ∈ matchLeaves query, Satisfies settings mapping groups.flatten clause docId := by
        intro docId
        clear size some_set found direct leaves ih shapes some_should
        induction each with
        | nil => simp
        | cons here _ later =>
          rw [List.forall_mem_cons, List.forall_mem_cons, here.2]
          exact and_congr_right' later
      obtain ⟨ids', met, exact_ids⟩ := intersectSets_spec some_set (by
        intro set member
        obtain ⟨i, here⟩ := List.mem_iff_getElem?.mp member
        obtain ⟨query, -, exact_set⟩ := forall₂_getElem? each.flip here
        exact exact_set.1)
      refine ⟨ids', ?_, exact_ids.congr fun docId => ?_⟩
      · rw [← met, found, size]
        have positive : 1 ≤ sets.length := List.length_pos_iff.mpr some_set
        simp [candidateSets, boolCandidates, List.reduceOption, positive, some_set]
      · rw [sets_iff]
        simp only [List.mem_flatMap, forall_exists_index, and_imp]
        exact ⟨fun all clause query member inside => all query member clause inside,
          fun all query member clause inside => all clause query member inside⟩

end Candidates

section Runs

variable {Digest F : Type} [DecidableEq Digest] {settings : Settings Digest} {index : DocumentIndex Digest}

/-- After every run that fits, a query that reduces has candidates, just the documents that satisfy its
leaves, and where the fused scorer answers it scores these, in order. -/
theorem fused_scores_candidates {steps : List Step} (ready : index.termsDirty = false)
    (fits : DocumentIndex.Meets settings (DocumentIndex.StepFits settings) .new steps)
    (finished : DocumentIndex.new.run settings steps = some index) :
    ∃ recorded, (∀ field term, index.stored field term = postingsFor recorded field term) ∧
      ∀ (mapping : IndexMapping) (query : SearchQuery F) (leaves : List (String × String)),
        query.reduceDecesConjunction = some leaves →
        ∃ ids, postingCandidateIds settings mapping index query = some ids ∧
          (Exactly ids fun docId => ∀ clause ∈ matchLeaves query,
            Satisfies settings mapping recorded clause docId) ∧
          ∀ terms bm25 mode scored, leaves.mapM (singleTerm settings mapping) = some terms →
            fusedConjunctionScoresWithMode settings mapping index bm25 mode leaves = some scored →
            scored.map Prod.snd = ids := by
  obtain ⟨groups, stores⟩ := DocumentIndex.run_stores ready fits finished
  refine ⟨groups.flatten, fun field term => (stores.parts field term).1.symm, ?_⟩
  intro mapping query leaves reduces
  obtain ⟨reduces, -⟩ := Option.filter_eq_some_iff.mp reduces
  obtain ⟨shape, rfl⟩ := reduced_of_reduce query reduces
  obtain ⟨ids, found, set⟩ := @candidates_spec Digest F settings mapping index groups _ stores query shape
  refine ⟨ids, found, set, fun terms bm25 mode scored singles answered => ?_⟩
  obtain ⟨ascending, documents, -⟩ := (Stores.intersects stores).fused mapping bm25 mode _ terms scored singles answered
  -- both are ascending, and a clause with one term does not depend on its operator
  refine ascending.eq_of_mem_iff set.1 fun docId => ?_
  rw [documents, set.2, List.forall_mem_map]
  refine forall₂_congr fun clause member => ?_
  obtain ⟨i, here⟩ := List.mem_iff_getElem?.mp (List.mem_map_of_mem (f := MatchClause.pair) member)
  obtain ⟨term, -, single⟩ := forall₂_getElem? (forall₂_of_mapM singles) here
  exact (satisfies_single single false docId).trans (satisfies_single single clause.requireAll docId).symm

def bothWords : SearchQuery Unit :=
  .bool [] [] [] [.matchField "title" "rust" .or,
    .functionScore (.bool [.matchField "title" "lean" .and] [] [] [] 0 1) 1 [] .multiply .multiply] 2 1

def frequencyScore : Bm25 := fun _ _ freq _ _ => some (freq + 1)

/-- Over two segments on disk, one of them merged, the document with both words is the only candidate,
and the fused scorer scores it. -/
theorem fused_scores_candidates_three_documents :
    ∃ index recorded ids scored,
      DocumentIndex.new.run (sampleSettings true) mergingRun = some index ∧
      postingCandidateIds (sampleSettings true) .default index bothWords = some ids ∧
      (Exactly ids fun docId => ∀ clause ∈ matchLeaves bothWords,
        Satisfies (sampleSettings true) .default recorded clause docId) ∧
      fusedConjunctionScoresWithMode (sampleSettings true) .default index frequencyScore .must
        [("title", "rust"), ("title", "lean")] = some scored ∧
      scored.map Prod.snd = ids ∧ scored = [(4, 1)] ∧ ids = [1] := by
  have computed : (DocumentIndex.new.run (sampleSettings true) mergingRun).map (fun index =>
      (index.termsDirty, postingCandidateIds (sampleSettings true) .default index bothWords,
        fusedConjunctionScoresWithMode (sampleSettings true) .default index frequencyScore .must
          [("title", "rust"), ("title", "lean")])) = some (false, some [1], some [(4, 1)]) := by
    decide +kernel
  obtain ⟨index, finished, values⟩ := Option.map_eq_some_iff.mp computed
  rw [Prod.mk.injEq, Prod.mk.injEq] at values
  obtain ⟨ready, candidate, scores⟩ := values
  obtain ⟨recorded, -, candidates⟩ := fused_scores_candidates (F := Unit) ready mergingRun_fits finished
  obtain ⟨ids, found, set, fused⟩ := candidates .default bothWords
    [("title", "rust"), ("title", "lean")] (by decide +kernel)
  refine ⟨index, recorded, ids, _, finished, found, set, scores, ?_, rfl, ?_⟩
  · exact fused [("title", "rust"), ("title", "lean")] _ _ _ (by decide +kernel) scores
  · rw [candidate] at found
    exact (Option.some.inj found).symm

end Runs

section Schedules

variable {Digest Digest' : Type} {settings : Settings Digest} {settings' : Settings Digest'}
  {index next : DocumentIndex Digest} {other : DocumentIndex Digest'}

def historyOf (settings : Settings Digest) (index : DocumentIndex Digest) (history : List Addition) :
    List Step → List Addition
  | [] => history
  | action :: rest =>
    match index.step settings action with
    | none => history
    | some next => historyOf settings next (DocumentIndex.historyAfter settings index history action) rest

theorem run_history (budgeted : settings.flushBudgetBytes.isSome = true)
    {filing : List (Segment Digest × List Addition)} {pending : List Addition}
    (filed : index.Filed settings filing pending) {steps : List Step}
    (fits : DocumentIndex.Meets settings (DocumentIndex.StepFits settings) index steps)
    (finished : index.run settings steps = some next) :
    ∃ filing' pending', next.Filed settings filing' pending' ∧ (filing'.map Prod.snd).flatten ++ pending' =
      historyOf settings index ((filing.map Prod.snd).flatten ++ pending) steps := by
  induction steps generalizing index filing pending with
  | nil =>
    cases finished
    exact ⟨filing, pending, filed, rfl⟩
  | cons action rest ih =>
    obtain ⟨middle, stepped, finished⟩ := Option.bind_eq_some_iff.mp finished
    obtain ⟨filing', pending', filed', history⟩ := DocumentIndex.step_filed filed action fits.1 stepped
    rw [historyOf, stepped, ← history budgeted]
    exact ih filed' (fits.2 middle stepped) finished

theorem run_stores_history (budgeted : settings.flushBudgetBytes.isSome = true) {steps : List Step}
    (fits : DocumentIndex.Meets settings (DocumentIndex.StepFits settings) .new steps)
    (finished : DocumentIndex.new.run settings steps = some index) (ready : index.termsDirty = false) :
    ∃ groups, Stores settings index groups ∧ groups.flatten = historyOf settings .new [] steps := by
  obtain ⟨filing, pending, filed, history⟩ := run_history budgeted DocumentIndex.new_filed fits finished
  obtain ⟨shown, served, within, same⟩ := filed.shown ready
  obtain rfl := same budgeted
  exact ⟨_, filed.stores_shown served within, by simpa using history⟩

/-- However two runs flush, merge and build between their batches, on disk or in memory: if the same was
added, the same postings are stored, and each `match` finds the same documents. -/
theorem schedules_agree {steps steps' : List Step} (budgeted : settings.flushBudgetBytes.isSome = true)
    (budgeted' : settings'.flushBudgetBytes.isSome = true)
    (fits : DocumentIndex.Meets settings (DocumentIndex.StepFits settings) .new steps)
    (fits' : DocumentIndex.Meets settings' (DocumentIndex.StepFits settings') .new steps')
    (finished : DocumentIndex.new.run settings steps = some index)
    (finished' : DocumentIndex.new.run settings' steps' = some other) (ready : index.termsDirty = false)
    (ready' : other.termsDirty = false) (unicode : settings.unicode = settings'.unicode)
    (same : historyOf settings .new [] steps = historyOf settings' .new [] steps') :
    (∀ field term, index.stored field term = other.stored field term) ∧
      ∀ mapping field value requireAll, matchHitsInternal settings mapping index field value requireAll =
        matchHitsInternal settings' mapping other field value requireAll := by
  obtain ⟨groups, stores, held⟩ := run_stores_history budgeted fits finished ready
  obtain ⟨groups', stores', held'⟩ := run_stores_history budgeted' fits' finished' ready'
  have alike : groups.flatten = groups'.flatten := held.trans (same.trans held'.symm)
  constructor
  · intro field term
    rw [← (stores.parts field term).1, ← (stores'.parts field term).1, alike]
  · intro mapping field value requireAll
    have hits := @matchHitsInternal_spec Digest settings mapping index groups stores field value requireAll
    have hits' := @matchHitsInternal_spec Digest' settings' mapping other groups' stores' field value requireAll
    refine hits.1.eq_of_mem_iff hits'.1 fun docId => ?_
    rw [hits.2, hits'.2, alike, Satisfies, Satisfies, unicode]

instance additionDecidableEq : DecidableEq Addition := fun a b =>
  decidable_of_iff (a.field = b.field ∧ a.term = b.term ∧ a.docId = b.docId ∧ a.positions = b.positions)
    (by cases a; cases b; simp)

/-- Three batches on disk, the segments of two of them merged, and one batch in memory. -/
theorem schedules_agree_three_documents :
    ∃ index other, DocumentIndex.new.run (sampleSettings true) mergingRun = some index ∧
      DocumentIndex.new.run (sampleSettings false) threeDocumentRun = some other ∧
      index.sealedSegments.map Segment.docCount = [2] ∧ other.sealedSegments.map Segment.docCount = [] ∧
      (∀ field term, index.stored field term = other.stored field term) ∧
      ∀ mapping field value requireAll,
        matchHitsInternal (sampleSettings true) mapping index field value requireAll =
          matchHitsInternal (sampleSettings false) mapping other field value requireAll := by
  have merged : (DocumentIndex.new.run (sampleSettings true) mergingRun).map (fun index =>
      (index.termsDirty, index.sealedSegments.map Segment.docCount)) = some (false, [2]) := by
    decide +kernel
  have single : (DocumentIndex.new.run (sampleSettings false) threeDocumentRun).map (fun index =>
      (index.termsDirty, index.sealedSegments.map Segment.docCount)) = some (false, []) := by
    decide +kernel
  have same : historyOf (sampleSettings true) .new [] mergingRun =
      historyOf (sampleSettings false) .new [] threeDocumentRun := by decide +kernel
  obtain ⟨index, finished, values⟩ := Option.map_eq_some_iff.mp merged
  obtain ⟨other, finished', values'⟩ := Option.map_eq_some_iff.mp single
  obtain ⟨ready, counts⟩ := Prod.mk.inj values
  obtain ⟨ready', counts'⟩ := Prod.mk.inj values'
  exact ⟨index, other, finished, finished', counts, counts',
    schedules_agree rfl rfl mergingRun_fits threeDocumentRun_fits finished finished' ready ready' rfl
      same⟩

end Schedules

end Surch.Api
