import Surch.Api.Sorting

/-! When the sort of the hits has a consistent order: a value of another kind may tie with two values
that do not tie with each other, and only a later clause can put such documents in order. -/
namespace Surch.Api
open Surch.Lib Surch.Lib.Comparison Surch.Index

variable {Score : Type} [LinearOrder Score]

section Values

inductive SortKind where
  | number
  | string
  | bool
deriving DecidableEq, Repr

def Value.sortKind : Value → Option SortKind
  | .number _ _ => some .number
  | .string _ => some .string
  | .bool _ => some .bool
  | _ => none

variable {asF64 : String → Option Score}

theorem partial_compareNumbers : Partial (compareNumbers : Option Score → Option Score → Ordering) := by
  constructor
  · rintro (_ | x) (_ | y)
    · rfl
    · rfl
    · rfl
    · exact partial_compare.swap x y
  · rintro (_ | x) (_ | y) (_ | z) below above <;>
      simp only [compareNumbers, reduceCtorEq] at below above ⊢
    exact partial_compare.strict x y z below above

theorem compareNumbers_eq_iff (x y : Option Score) : compareNumbers x y = .eq ↔ x = y := by
  cases x <;> cases y <;> simp [compareNumbers]

theorem sortKind_of_compareValues {x y : Value} (decided : compareValues asF64 x y ≠ .eq) :
    x.sortKind = y.sortKind ∧ x.sortKind ≠ none := by
  cases x <;> cases y <;> simp_all [compareValues, Value.sortKind]

theorem compareValues_congr {x y : Value} (same : x.sortKind = y.sortKind)
    (ordered : x.sortKind ≠ none) (tied : compareValues asF64 x y = .eq) (z : Value) :
    compareValues asF64 x z = compareValues asF64 y z := by
  cases x with
  | number text float =>
    cases y with
    | number text' float' =>
      have equal := (compareNumbers_eq_iff _ _).mp tied
      cases z <;> simp [compareValues, equal]
    | null | bool | string | array | object => cases same
  | string text =>
    cases y with
    | string text' =>
      have equal : compare text text' = .eq := tied
      rw [Std.LawfulEqCmp.eq_of_compare equal]
    | null | bool | number | array | object => cases same
  | bool flag =>
    cases y with
    | bool flag' =>
      have equal : compare flag flag' = .eq := tied
      rw [Std.LawfulEqCmp.eq_of_compare equal]
    | null | string | number | array | object => cases same
  | null | array | object => exact absurd rfl ordered

theorem partial_compareValues : Partial (compareValues asF64) := by
  constructor
  · intro x y
    cases x <;> cases y <;> try rfl
    · exact partial_compare.swap _ _
    · exact partial_compareNumbers.swap _ _
    · exact partial_compare.swap _ _
  · intro x y z below above
    have left := (sortKind_of_compareValues (by rw [below]; simp)).1
    have right := (sortKind_of_compareValues (by rw [above]; simp)).1
    cases y with
    | number =>
      cases x with
      | number =>
        cases z with
        | number => exact partial_compareNumbers.strict _ _ _ below above
        | null | bool | string | array | object => cases right
      | null | bool | string | array | object => cases left
    | string =>
      cases x with
      | string =>
        cases z with
        | string => exact partial_compare.strict _ _ _ below above
        | null | bool | number | array | object => cases right
      | null | bool | number | array | object => cases left
    | bool =>
      cases x with
      | bool =>
        cases z with
        | bool => exact partial_compare.strict _ _ _ below above
        | null | string | number | array | object => cases right
      | null | string | number | array | object => cases left
    | null | array | object => cases x <;> cases below

end Values

section Clauses

variable (asF64 : String → Option Score) (unicode : Unicode) (mapping : Option IndexMapping)
  (projections : SubfieldProjections)

theorem partial_direct {α : Type} {cmp : α → α → Ordering} (decides : Partial cmp) (order : SortOrder) :
    Partial fun x y => order.direct (cmp x y) := by
  cases order with
  | asc => exact decides
  | desc =>
    constructor
    · intro x y
      simp only [SortOrder.direct, decides.swap x y]
    · intro x y z below above
      simp only [SortOrder.direct, Ordering.swap_eq_lt, ← decides.lt_iff] at below above ⊢
      exact decides.strict z y x above below

theorem direct_eq_iff (order : SortOrder) (ordering : Ordering) :
    order.direct ordering = .eq ↔ ordering = .eq := by
  cases order <;> cases ordering <;> simp [SortOrder.direct]

theorem partial_compareField (order : SortOrder) :
    Partial fun left right => compareField asF64 left right order := by
  have decides := partial_direct (@partial_compareValues _ _ asF64) order
  constructor
  · rintro (_ | x) (_ | y)
    · rfl
    · rfl
    · rfl
    · exact decides.swap x y
  · rintro (_ | x) (_ | y) (_ | z) below above <;>
      simp only [compareField, reduceCtorEq] at below above ⊢
    exact decides.strict x y z below above

theorem partial_compareSortClause (clause : SortClause) (normalizer : Option AnalyzerName) :
    Partial (compareSortClause asF64 unicode clause normalizer projections) := by
  unfold compareSortClause
  by_cases score : clause.field = "_score"
  · simp only [if_pos score, compareScore]
    have decides := partial_direct (partial_compare (α := Score)) clause.order
    exact ⟨fun x y => decides.swap x.score y.score, fun x y z => decides.strict _ _ _⟩
  · simp only [if_neg score]
    have decides := partial_compareField asF64 clause.order
    exact ⟨fun x y => decides.swap _ _, fun x y z => decides.strict _ _ _⟩

theorem partial_clauseComparisons (clauses : List SortClause) :
    ∀ cmp ∈ clauseComparisons asF64 unicode clauses mapping projections, Partial cmp := by
  intro cmp member
  obtain ⟨clause, -, rfl⟩ := List.mem_map.mp member
  exact partial_compareSortClause asF64 unicode projections clause _

def OtherKindBetween (clause : SortClause) (normalizer : Option AnalyzerName)
    (x y z : ScoredDocument Score) : Prop :=
  clause.field ≠ "_score" ∧ ∃ first second third,
    sortValue unicode clause normalizer projections x = some first ∧
    sortValue unicode clause normalizer projections y = some second ∧
    sortValue unicode clause normalizer projections z = some third ∧
    clause.order.direct (compareValues asF64 first third) = .lt ∧
    second.sortKind ≠ first.sortKind

/-- A document ties with two that the clause tells apart exactly when its value is of another kind. -/
theorem straddles_iff (clause : SortClause) (normalizer : Option AnalyzerName)
    (x y z : ScoredDocument Score) :
    Straddles (compareSortClause asF64 unicode clause normalizer projections) x y z ↔
      OtherKindBetween asF64 unicode projections clause normalizer x y z := by
  unfold Straddles OtherKindBetween compareSortClause
  by_cases score : clause.field = "_score"
  · simp only [score, if_true, ne_eq, not_true_eq_false, false_and, iff_false, compareScore]
    rintro ⟨below, left, right⟩
    rw [direct_eq_iff, compare_eq_iff_eq] at left right
    rw [left, right, compare_eq_iff_eq.mpr rfl] at below
    cases order : clause.order <;> rw [order] at below <;> cases below
  · simp only [ne_eq, score, not_false_eq_true, true_and, if_false]
    generalize sortValue unicode clause normalizer projections x = first
    generalize sortValue unicode clause normalizer projections y = second
    generalize sortValue unicode clause normalizer projections z = third
    constructor
    · rintro ⟨below, left, right⟩
      -- a missing value would be put behind one of the others
      cases first with
      | none => cases third <;> cases below
      | some first =>
        cases second with
        | none => cases left
        | some second =>
          cases third with
          | none => cases right
          | some third =>
            refine ⟨first, second, third, rfl, rfl, rfl, below, fun same => ?_⟩
            have tied := (direct_eq_iff _ _).mp left
            have tied' := (direct_eq_iff _ _).mp right
            have decided : compareValues asF64 first third ≠ .eq := by
              intro equal
              have both := (direct_eq_iff clause.order _).mpr equal
              simp only [compareField] at below
              rw [both] at below
              cases below
            obtain ⟨-, ordered⟩ := sortKind_of_compareValues decided
            rw [compareValues_congr same.symm ordered tied third] at decided
            exact decided tied'
    · rintro ⟨first, second, third, rfl, rfl, rfl, below, other⟩
      have decided : compareValues asF64 first third ≠ .eq := by
        intro equal
        rw [(direct_eq_iff _ _).mpr equal] at below
        cases below
      obtain ⟨same, -⟩ := sortKind_of_compareValues decided
      have left : compareValues asF64 first second = .eq := by
        by_contra untied
        exact other (sortKind_of_compareValues untied).1.symm
      have right : compareValues asF64 second third = .eq := by
        by_contra untied
        exact other ((sortKind_of_compareValues untied).1.trans same.symm)
      exact ⟨below, (direct_eq_iff _ _).mpr left, (direct_eq_iff _ _).mpr right⟩

/-- The comparison of the hits is a total preorder on some documents exactly when no value of another
kind comes between two that a clause tells apart, unless the later clauses put the document in the
middle behind the first or before the last of the three. -/
theorem inTurn_consistent_iff (clauses : List SortClause) (inside : ScoredDocument Score → Prop) :
    ConsistentOn inside (inTurn (clauseComparisons asF64 unicode clauses mapping projections)) ↔
      ∀ earlier clause later, clauses = earlier ++ clause :: later →
        ∀ x y z, inside x → inside y → inside z →
          TiesAll (inTurn (clauseComparisons asF64 unicode earlier mapping projections)) x y z →
          OtherKindBetween asF64 unicode projections clause
            (mapping.bind fun mapping => subfieldNormalizer mapping clause.field) x y z →
          inTurn (clauseComparisons asF64 unicode later mapping projections) x y = .lt ∨
            inTurn (clauseComparisons asF64 unicode later mapping projections) y z = .lt := by
  rw [consistentOn_inTurn_iff (partial_clauseComparisons asF64 unicode mapping projections clauses)]
  constructor
  · rintro whole earlier clause later rfl x y z hx hy hz ties between
    by_contra unmended
    rw [not_or] at unmended
    refine whole x y z hx hy hz ⟨_, _, _, ?_, ties,
      (straddles_iff asF64 unicode projections clause _ x y z).mpr between, unmended⟩
    simp [clauseComparisons]
  · rintro mended x y z hx hy hz ⟨earlier, cmp, later, split, ties, straddles, left, right⟩
    obtain ⟨front, rest, rfl, rfl, mapped⟩ := List.map_eq_append_iff.mp split
    obtain ⟨clause, back, rfl, rfl, rfl⟩ := List.map_eq_cons_iff.mp mapped
    rcases mended front clause back rfl x y z hx hy hz ties
      ((straddles_iff asF64 unicode projections clause _ x y z).mp straddles) with mends | mends
    · exact left mends
    · exact right mends

end Clauses

section Sorting

variable (asF64 : String → Option Score) (unicode : Unicode)

theorem compareScored_nil (scoringEnabled : Bool) (mapping : Option IndexMapping)
    (projections : SubfieldProjections) (inside : ScoredDocument Score → Prop) :
    ConsistentOn inside (compareScored asF64 unicode [] scoringEnabled mapping projections) := by
  cases scoringEnabled with
  | false => exact ⟨fun _ _ _ _ => rfl, fun _ _ _ _ _ _ _ _ => nofun, fun _ _ _ _ _ _ _ _ => rfl⟩
  | true =>
    have same : compareScored asF64 unicode [] true mapping projections =
        inTurn [fun left right : ScoredDocument Score => compare right.score left.score] := by
      funext left right
      by_cases tied : compare right.score left.score = .eq <;> simp [compareScored, inTurn, tied]
    rw [same, consistentOn_inTurn_iff]
    · rintro x y z - - - ⟨earlier, cmp, later, split, -, ⟨below, left, right⟩, -⟩
      cases earlier with
      | nil =>
        obtain ⟨rfl, -⟩ := List.cons.inj split
        rw [compare_eq_iff_eq] at left right
        have outer : compare z.score x.score = .lt := below
        rw [right, left, compare_eq_iff_eq.mpr rfl] at outer
        cases outer
      | cons => simp at split
    · intro cmp member
      obtain rfl := List.mem_singleton.mp member
      exact ⟨fun x y => partial_compare.swap _ _,
        fun x y z below above => partial_compare.strict _ _ _ above below⟩

/-- The comparison of the hits is a total preorder on some documents exactly when no value of another
kind comes between two that a clause tells apart, unless the later clauses mend it. Then the sort is
the one stable sort of the documents, whatever the algorithm. -/
theorem sort_scored_documents_consistent_iff (documents : List (ScoredDocument Score))
    (clauses : List SortClause) (scoringEnabled : Bool) (mapping : Option IndexMapping)
    (projections : SubfieldProjections) :
    (ConsistentOn (· ∈ documents)
        (compareScored asF64 unicode clauses scoringEnabled mapping projections) ↔
      ∀ earlier clause later, clauses = earlier ++ clause :: later →
        ∀ x y z, x ∈ documents → y ∈ documents → z ∈ documents →
          TiesAll (inTurn (clauseComparisons asF64 unicode earlier mapping projections)) x y z →
          OtherKindBetween asF64 unicode projections clause
            (mapping.bind fun mapping => subfieldNormalizer mapping clause.field) x y z →
          inTurn (clauseComparisons asF64 unicode later mapping projections) x y = .lt ∨
            inTurn (clauseComparisons asF64 unicode later mapping projections) y z = .lt) ∧
    (ConsistentOn (· ∈ documents)
        (compareScored asF64 unicode clauses scoringEnabled mapping projections) →
      ∀ sorted, SortsStably (compareScored asF64 unicode clauses scoringEnabled mapping projections)
          documents sorted ↔
        sorted = sortScoredDocuments asF64 unicode documents clauses scoringEnabled mapping
          projections) := by
  constructor
  · cases clauses with
    | nil =>
      refine iff_of_true (compareScored_nil asF64 unicode scoringEnabled mapping projections _) ?_
      intro earlier clause later split
      simp at split
    | cons clause rest =>
      exact inTurn_consistent_iff asF64 unicode mapping projections (clause :: rest) _
  · intro consistent sorted
    have stable : SortsStably
        (compareScored asF64 unicode clauses scoringEnabled mapping projections) documents
        (sortScoredDocuments asF64 unicode documents clauses scoringEnabled mapping projections) := by
      unfold sortScoredDocuments
      split
      · rename_i untouched
        obtain ⟨none, unscored⟩ := Bool.and_eq_true_iff.mp untouched
        have ties : ∀ left right : ScoredDocument Score,
            compareScored asF64 unicode clauses scoringEnabled mapping projections left right = .eq := by
          intro left right
          rw [compareScored, if_pos none, if_neg (by simpa using unscored)]
        exact ⟨.refl _, List.pairwise_of_forall_mem_list fun x _ y _ => by simp [ties], fun _ _ => rfl⟩
      · exact consistent.mergeSort_sortsStably
    constructor
    · exact fun other => consistent.sortsStably_unique other stable
    · rintro rfl
      exact stable

end Sorting

section Mixed

def smallNumber (text : String) : Option Int := (parseUnsigned (2 ^ 64) text.toList).map Int.ofNat

def sampleHit (value : Value) : ScoredDocument Int where
  doc := { docId := 0, index := "i", id := "d", source := .object [("f", value)] }
  score := 0

def mixedHits : List (ScoredDocument Int) :=
  [sampleHit (.number "2" false), sampleHit (.string "x"), sampleHit (.number "1" false)]

def byField : List SortClause := [{ field := "f", order := .asc }]

theorem not_sort_scored_documents_consistent :
    ¬ ∀ (asF64 : String → Option Int) (unicode : Unicode) (documents : List (ScoredDocument Int))
      (clauses : List SortClause) (scoringEnabled : Bool) (mapping : Option IndexMapping)
      (projections : SubfieldProjections), ConsistentOn (· ∈ documents)
        (compareScored asF64 unicode clauses scoringEnabled mapping projections) := by
  intro always
  have consistent := always smallNumber .ascii mixedHits byField false none ⟨.empty⟩
  have tied : compareScored smallNumber .ascii byField false none ⟨.empty⟩
      (sampleHit (.number "2" false)) (sampleHit (.number "1" false)) = .eq :=
    consistent.ties _ (sampleHit (.string "x")) _ (by simp [mixedHits]) (by simp [mixedHits])
      (by simp [mixedHits]) rfl rfl
  exact absurd tied (by decide +kernel)

def numberHits : List (ScoredDocument Int) :=
  [sampleHit (.number "2" false), sampleHit (.number "1" false), sampleHit (.number "2" false)]

/-- Numbers are ordered consistently, and their stable sort is the one that comes out. -/
theorem sort_scored_documents_consistent_numbers :
    ConsistentOn (· ∈ numberHits)
        (compareScored smallNumber .ascii byField false none ⟨.empty⟩) ∧
      ∀ sorted, SortsStably (compareScored smallNumber .ascii byField false none ⟨.empty⟩)
          numberHits sorted ↔
        sorted = sortScoredDocuments smallNumber .ascii numberHits byField false none ⟨.empty⟩ := by
  obtain ⟨decides, sorts⟩ := sort_scored_documents_consistent_iff smallNumber .ascii numberHits byField
    false none ⟨.empty⟩
  suffices consistent : _ from ⟨decides.mpr consistent, sorts (decides.mpr consistent)⟩
  intro earlier clause later split x y z hx hy hz ties between
  have kinds : ∀ hit ∈ numberHits, ∀ value ∈ sortValue .ascii { field := "f", order := .asc } none
      ⟨.empty⟩ hit, value.sortKind = (Value.number "1" false).sortKind := by decide +kernel
  have alone : earlier = [] ∧ clause = { field := "f", order := .asc } ∧ later = [] := by
    cases earlier with
    | nil => simpa [byField, eq_comm] using split
    | cons first rest => simp [byField] at split
  obtain ⟨rfl, rfl, rfl⟩ := alone
  obtain ⟨-, first, second, third, has, has', -, -, other⟩ := between
  exact absurd ((kinds y hy second has').trans (kinds x hx first has).symm) other

end Mixed

end Surch.Api
