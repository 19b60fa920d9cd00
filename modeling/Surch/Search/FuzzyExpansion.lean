import Mathlib.Data.String.Basic
import Surch.Search.Fuzzy

/-! What a fuzzy query expands to, whatever the order of the terms. A query shorter than the common
beginning that is asked for has no expansion, not even itself. -/
namespace Surch.Search
open Surch.Lib

section Ordering

theorem fuzzyMatchOrdering_isLE_iff (a b : FuzzyTermMatch) :
    (fuzzyMatchOrdering a b).isLE = true ↔ a.edits < b.edits ∨ a.edits = b.edits ∧ a.term ≤ b.term := by
  rcases lt_trichotomy a.edits b.edits with less | same | more
  · have below : compare a.edits b.edits = .lt := compare_lt_iff_lt.mpr less
    simp [fuzzyMatchOrdering, below, Ordering.then, less]
  · simp [fuzzyMatchOrdering, Ordering.then, same, Std.LawfulBCmp.isLE_iff_le]
  · have above : compare a.edits b.edits = .gt := compare_gt_iff_gt.mpr more
    simp [fuzzyMatchOrdering, above, Ordering.then, more.asymm, more.ne']

theorem fuzzyMatchOrdering_total : Window.Total fun a b => (fuzzyMatchOrdering a b).isLE := by
  constructor
  · intro x y
    simp only [fuzzyMatchOrdering_isLE_iff]
    grind
  · intro x y z
    simp only [fuzzyMatchOrdering_isLE_iff]
    grind
  · rintro ⟨x, n⟩ ⟨y, m⟩
    simp only [fuzzyMatchOrdering_isLE_iff]
    grind

end Ordering

variable {query : String} {maxEdits : Nat} {config : FuzzyQueryConfig}

theorem hasExactCharPrefixOf_iff (n : Nat) (query term : List Char) :
    hasExactCharPrefixOf n query term = true ↔ n ≤ query.length ∧ query.take n <+: term := by
  induction n generalizing query term with
  | zero => simp [hasExactCharPrefixOf]
  | succ n ih =>
    cases query with
    | nil => simp [hasExactCharPrefixOf]
    | cons queryChar query =>
      cases term with
      | nil => simp [hasExactCharPrefixOf]
      | cons termChar term =>
        simp only [hasExactCharPrefixOf, Bool.and_eq_true, beq_iff_eq, ih, List.length_cons,
          List.take_succ_cons, List.cons_prefix_cons, Nat.add_le_add_iff_right]
        tauto

/- A term within the edit bound that begins like the query, with its distance. -/
def fuzzyCandidate (query : String) (maxEdits : Nat) (config : FuzzyQueryConfig) (term : String) :
    Option FuzzyTermMatch :=
  if query.toList.take config.prefixLength <+: term.toList ∧
      termDistance config.transpositions query term ≤ maxEdits then
    some { term, edits := termDistance config.transpositions query term }
  else none

/- What the expansion is meant to be: the first candidates by distance and term. -/
def canonicalExpansion (query : String) (maxEdits : Nat) (config : FuzzyQueryConfig)
    (terms : List String) : List FuzzyTermMatch :=
  Window.front (fun left right => (fuzzyMatchOrdering left right).isLE) config.maxExpansions
    (terms.filterMap (fuzzyCandidate query maxEdits config))

def FuzzyQueryConfig.Valid (config : FuzzyQueryConfig) : Prop :=
  validateFuzziness config.fuzziness = .ok () ∧ 1 ≤ config.maxExpansions

theorem editsForTermLen_of_valid {fuzziness : Fuzziness} (len : Nat)
    (valid : validateFuzziness fuzziness = .ok ()) :
    ∃ maxEdits ≤ maxSupportedEdits, editsForTermLen fuzziness len = .ok maxEdits := by
  unfold editsForTermLen
  rw [valid]
  cases fuzziness with
  | edits maxEdits =>
    refine ⟨maxEdits, ?_, rfl⟩
    by_contra large
    simp [validateFuzziness, validateMaxEdits, Nat.not_le.mp large] at valid
  | auto low high =>
    refine ⟨_, ?_, rfl⟩
    unfold maxSupportedEdits
    split
    · omega
    · split <;> omega

theorem fuzzyMatches_eq (accepted : maxEdits ≤ maxSupportedEdits) (terms : List String)
    (found : List FuzzyTermMatch) :
    fuzzyMatches query maxEdits config terms found = some (.ok (found ++
      terms.filterMap fun term =>
        if config.prefixLength ≤ query.length then fuzzyCandidate query maxEdits config term
        else none)) := by
  induction terms generalizing found with
  | nil => simp [fuzzyMatches]
  | cons term rest ih =>
    have agrees := hasExactCharPrefixOf_iff config.prefixLength query.toList term.toList
    rw [String.length_toList] at agrees
    by_cases shares : hasExactCharPrefix query term config.prefixLength = true
    · obtain ⟨long, same⟩ := agrees.mp shares
      simp only [fuzzyMatches, if_pos shares, boundedDamerauLevenshtein_eq accepted]
      by_cases near : termDistance config.transpositions query term ≤ maxEdits
      · simp [near, ih, long, fuzzyCandidate, same]
      · simp [near, ih, long, fuzzyCandidate]
    · simp only [fuzzyMatches, if_neg shares, ih]
      by_cases long : config.prefixLength ≤ query.length
      · have apart : ¬ query.toList.take config.prefixLength <+: term.toList := by
          intro same
          exact shares (agrees.mpr ⟨long, same⟩)
        simp [long, fuzzyCandidate, apart]
      · simp [long]

theorem expandFuzzyTerms_eq {terms : List String} (valid : config.Valid)
    (resolved : editsForTermLen config.fuzziness query.length = .ok maxEdits)
    (accepted : maxEdits ≤ maxSupportedEdits) :
    expandFuzzyTerms query terms config = some (.ok (if config.prefixLength ≤ query.length then
      canonicalExpansion query maxEdits config terms else [])) := by
  have some_expansions : config.maxExpansions ≠ 0 := Nat.one_le_iff_ne_zero.mp valid.2
  unfold expandFuzzyTerms canonicalExpansion Window.front
  rw [if_neg some_expansions, resolved]
  simp only [fuzzyMatches_eq accepted, Option.map_some, Except.map, List.nil_append]
  by_cases long : config.prefixLength ≤ query.length <;> simp [long]

theorem canonicalExpansion_perm {terms other : List String} (same : other.Perm terms) :
    canonicalExpansion query maxEdits config other = canonicalExpansion query maxEdits config terms := by
  unfold canonicalExpansion Window.front
  rw [fuzzyMatchOrdering_total.mergeSort_congr (same.filterMap _)]

theorem canonicalExpansion_head? {terms : List String} (valid : config.Valid) (there : query ∈ terms) :
    (canonicalExpansion query maxEdits config terms).head? = some { term := query, edits := 0 } := by
  apply Window.head?_front fuzzyMatchOrdering_total valid.2
  · refine List.mem_filterMap.mpr ⟨query, there, ?_⟩
    simp [fuzzyCandidate, termDistance, EditDistance.distance_self, List.take_prefix]
  · intro other member
    obtain ⟨term, -, candidate⟩ := List.mem_filterMap.mp member
    unfold fuzzyCandidate at candidate
    split at candidate
    · cases candidate
      rw [fuzzyMatchOrdering_isLE_iff]
      by_cases itself : termDistance config.transpositions query term = 0
      · have same : query = term := String.toList_inj.mp (EditDistance.eq_of_distance_eq_zero itself)
        exact .inr ⟨itself.symm, same.le⟩
      · exact .inl (Nat.pos_of_ne_zero itself)
    · cases candidate

/-- The expansion is canonical unless the query is too short for the beginning asked for and some
candidate goes on from the whole query. It never depends on the order of the terms. -/
theorem expand_fuzzy_terms_canonical_iff (query : String) (terms : List String)
    (config : FuzzyQueryConfig) (valid : config.Valid) :
    ∃ maxEdits found, editsForTermLen config.fuzziness query.length = .ok maxEdits ∧
      expandFuzzyTerms query terms config = some (.ok found) ∧
      (∀ other, other.Perm terms → expandFuzzyTerms query other config = some (.ok found)) ∧
      ((found = canonicalExpansion query maxEdits config terms ∧
          (query ∈ terms → found.head? = some { term := query, edits := 0 })) ↔
        config.prefixLength ≤ query.length ∨ ∀ term ∈ terms, ¬ (query.toList <+: term.toList ∧
          termDistance config.transpositions query term ≤ maxEdits)) := by
  obtain ⟨maxEdits, accepted, resolved⟩ := editsForTermLen_of_valid query.length valid.1
  refine ⟨maxEdits, _, resolved, expandFuzzyTerms_eq valid resolved accepted, ?_, ?_⟩
  · intro other same
    rw [expandFuzzyTerms_eq valid resolved accepted, canonicalExpansion_perm same]
  by_cases long : config.prefixLength ≤ query.length
  · simp only [long, if_true, true_or, iff_true, true_and]
    exact canonicalExpansion_head? valid
  · have whole : query.toList.take config.prefixLength = query.toList := by
      apply List.take_of_length_le
      rw [String.length_toList]
      omega
    have empty : ([] = canonicalExpansion query maxEdits config terms) ↔
        ∀ term ∈ terms, ¬ (query.toList <+: term.toList ∧
          termDistance config.transpositions query term ≤ maxEdits) := by
      have some_expansions : config.maxExpansions ≠ 0 := Nat.one_le_iff_ne_zero.mp valid.2
      rw [eq_comm, canonicalExpansion, Window.front, List.take_eq_nil_iff,
        or_iff_right some_expansions, ← List.length_eq_zero_iff, List.length_mergeSort,
        List.length_eq_zero_iff, List.filterMap_eq_nil_iff]
      simp [fuzzyCandidate, whole]
    simp only [long, if_false, false_or, ← empty]
    constructor
    · exact fun canonical => canonical.1
    · intro canonical
      refine ⟨canonical, fun there => ?_⟩
      rw [canonical]
      exact canonicalExpansion_head? valid there

def shortQueryConfig : FuzzyQueryConfig where
  fuzziness := .edits 1
  prefixLength := 3
  maxExpansions := 50
  transpositions := true

theorem shortQueryConfig_valid : shortQueryConfig.Valid := ⟨rfl, by decide⟩

theorem expand_fuzzy_terms_canonical_iff_le :
    ∃ maxEdits found, editsForTermLen shortQueryConfig.fuzziness 2 = .ok maxEdits ∧
      expandFuzzyTerms "le" ["le", "lea"] shortQueryConfig = some (.ok found) := by
  obtain ⟨maxEdits, found, resolved, expanded, -⟩ :=
    expand_fuzzy_terms_canonical_iff "le" ["le", "lea"] shortQueryConfig shortQueryConfig_valid
  exact ⟨maxEdits, found, resolved, expanded⟩

/- The term itself is among the candidates and the expansion is empty. -/
theorem not_expand_fuzzy_terms_canonical :
    ¬ ∀ (query : String) (terms : List String) (config : FuzzyQueryConfig) (maxEdits : Nat)
      (found : List FuzzyTermMatch), config.Valid → terms.Nodup →
      editsForTermLen config.fuzziness query.length = .ok maxEdits →
      expandFuzzyTerms query terms config = some (.ok found) →
      found = canonicalExpansion query maxEdits config terms ∧
        (query ∈ terms → found.head? = some { term := query, edits := 0 }) := by
  intro canonical
  have expanded := @expandFuzzyTerms_eq "le" 1 shortQueryConfig ["le", "lea"]
    shortQueryConfig_valid rfl (by decide)
  rw [if_neg (by decide)] at expanded
  have first := (canonical "le" ["le", "lea"] shortQueryConfig 1 [] shortQueryConfig_valid
    (by decide) rfl expanded).2 List.mem_cons_self
  cases first

end Surch.Search
