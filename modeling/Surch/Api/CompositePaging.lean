import Mathlib.Algebra.BigOperators.Group.List.Lemmas
import Surch.Api.CompositeAggregation

/-! The pages of a composite aggregation, each asked for with the key of the page before, are the
tuples of the documents in ascending order, every one once and with all its documents. -/
namespace Surch.Api
open Surch.Lib Surch.Index

variable {Score : Type} (serde : Serde) (sources : List CompositeSource)
  (projections : SubfieldProjections)

section Presence

/- The value, or the first element of an array that is not null. -/
inductive StandsFor : Value → Value → Prop where
  | plain {value : Value} (single : ∀ items, value ≠ .array items) (given : value ≠ .null) :
      StandsFor value value
  | first (nulls : Nat) {item : Value} (later : List Value) (given : item ≠ .null) :
      StandsFor (.array (List.replicate nulls .null ++ item :: later)) item

inductive HasValue (projections : SubfieldProjections) (scored : ScoredDocument Score) :
    CompositeSourceKind → Value → Prop where
  | terms {field : String} {found value : Value}
      (carries : aggregationValue scored field projections = some found)
      (single : StandsFor found value) : HasValue projections scored (.terms field) value
  | dateHistogram {field : String} {interval : CalendarInterval} {found value : Value} {key : String}
      (carries : aggregationValue scored field projections = some found)
      (single : StandsFor found value) (dated : bucketKeyForDate value interval = some key) :
      HasValue projections scored (.dateHistogram field interval) (.string key)

def HasTuple (scored : ScoredDocument Score) (tuple : List TermsKey) : Prop :=
  List.Forall₂ (fun source key => ∃ value, HasValue projections scored source.kind value ∧
    key = .fromValue serde value) sources tuple

def HasAll (scored : ScoredDocument Score) : Prop :=
  ∀ source ∈ sources, ∃ value, HasValue projections scored source.kind value

theorem compositeScalar_eq_some_iff {found value : Value} :
    compositeScalar found = some value ↔ StandsFor found value := by
  have isNull_iff : ∀ value : Value, value.isNull = true ↔ value = .null := by
    intro value
    cases value <;> simp [Value.isNull]
  constructor
  · intro read
    cases found with
    | array items =>
      obtain ⟨given, nulls, later, rfl, before⟩ := List.find?_eq_some_iff_append.mp read
      have same : nulls = List.replicate nulls.length .null := by
        refine List.eq_replicate_of_mem fun item member => ?_
        exact (isNull_iff item).mp (by simpa using before item member)
      rw [same]
      exact .first _ later fun missing => by simp [missing, Value.isNull] at given
    | null => cases read
    | _ =>
      cases read
      refine .plain ?_ ?_
      · intro items same
        cases same
      · intro same
        cases same
  · intro stands
    cases stands with
    | plain single given =>
      cases found with
      | array items => exact absurd rfl (single items)
      | null => exact absurd rfl given
      | _ => rfl
    | first nulls later given =>
      refine List.find?_eq_some_iff_append.mpr ⟨?_, _, later, rfl, ?_⟩
      · simpa [← Bool.not_eq_true, isNull_iff] using given
      · intro item member
        simp [(List.mem_replicate.mp member).2, Value.isNull]

variable {serde sources projections}

theorem compositeValue_eq_some_iff {scored : ScoredDocument Score} {source : CompositeSource}
    {value : Value} : compositeValue projections scored source = some value ↔
      HasValue projections scored source.kind value := by
  unfold compositeValue
  constructor
  · intro read
    split at read
    · rename_i kind
      obtain ⟨found, carries, single⟩ := Option.bind_eq_some_iff.mp read
      rw [kind]
      exact .terms carries (compositeScalar_eq_some_iff.mp single)
    · rename_i kind
      obtain ⟨found, carries, read⟩ := Option.bind_eq_some_iff.mp read
      obtain ⟨scalar, single, shown⟩ := Option.bind_eq_some_iff.mp read
      obtain ⟨key, dated, rfl⟩ := Option.map_eq_some_iff.mp shown
      rw [kind]
      exact .dateHistogram carries (compositeScalar_eq_some_iff.mp single) dated
  · intro has
    generalize kind : source.kind = form at has
    cases has with
    | terms carries single =>
      simp [carries, compositeScalar_eq_some_iff.mpr single]
    | dateHistogram carries single dated =>
      simp [carries, compositeScalar_eq_some_iff.mpr single, dated]

theorem compositeValues_isSome_iff {scored : ScoredDocument Score} :
    (compositeValues sources projections scored).isSome ↔ HasAll sources projections scored := by
  unfold compositeValues HasAll
  induction sources with
  | nil => simp
  | cons source sources ih =>
    rw [List.forall_mem_cons, ← ih, List.mapM_cons]
    simp only [← compositeValue_eq_some_iff]
    cases compositeValue projections scored source with
    | none => simp
    | some value => cases sources.mapM (compositeValue projections scored) <;> simp

end Presence

def documentTuple (scored : ScoredDocument Score) : Option (List TermsKey) :=
  (compositeValues sources projections scored).map fun values => values.map (.fromValue serde)

theorem documentTuple_eq_some_iff {scored : ScoredDocument Score} {tuple : List TermsKey} :
    documentTuple serde sources projections scored = some tuple ↔
      HasTuple serde sources projections scored tuple := by
  unfold documentTuple compositeValues HasTuple
  induction sources generalizing tuple with
  | nil => simp [eq_comm]
  | cons source sources ih =>
    rw [List.forall₂_cons_left_iff, List.mapM_cons]
    simp only [← ih]
    simp only [← compositeValue_eq_some_iff]
    cases compositeValue projections scored source with
    | none => simp
    | some value =>
      cases sources.mapM (compositeValue projections scored) with
      | none => simp
      | some values => simp [eq_comm]

instance hasTupleDecidable (scored : ScoredDocument Score) (tuple : List TermsKey) :
    Decidable (HasTuple serde sources projections scored tuple) :=
  decidable_of_iff _ (documentTuple_eq_some_iff serde sources projections)

instance hasAllDecidable (scored : ScoredDocument Score) :
    Decidable (HasAll sources projections scored) :=
  decidable_of_iff _ compositeValues_isSome_iff

def bucketTuple (bucket : AggBucket) : List TermsKey :=
  sources.map fun source =>
    .fromValue serde ((bucket.key.asObject.bind fun entries => entries.lookup source.name).getD .null)

section Counts

variable {serde sources projections}

def countAll (serde : Serde) (sources : List CompositeSource) (projections : SubfieldProjections)
    (documents : List (ScoredDocument Score)) : CompositeCounts :=
  documents.foldl (countComposite serde sources projections) .empty

theorem compositeValues_length {scored : ScoredDocument Score} {values : List Value}
    (present : compositeValues sources projections scored = some values) :
    values.length = sources.length := by
  unfold compositeValues at present
  induction sources generalizing values with
  | nil =>
    cases present
    rfl
  | cons source sources ih =>
    rw [List.mapM_cons] at present
    simp only [Option.bind_eq_bind, Option.bind_eq_some_iff] at present
    obtain ⟨value, -, rest, later, same⟩ := present
    cases same
    exact congrArg (· + 1) (ih later)

/-- A tuple is counted with values that have it as their keys, once for each of its documents. -/
theorem countAll_get? (documents : List (ScoredDocument Score)) (tuple : List TermsKey) :
    match (countAll serde sources projections documents).get? tuple with
    | some (values, docCount) => values.map (.fromValue serde) = tuple ∧
        values.length = sources.length ∧ 0 < docCount ∧
        docCount = documents.countP fun scored => documentTuple serde sources projections scored = some tuple
    | none => documents.countP
        (fun scored => documentTuple serde sources projections scored = some tuple) = 0 := by
  induction documents using List.reverseRecOn with
  | nil => rfl
  | append_singleton documents scored ih =>
    have last : countAll serde sources projections (documents ++ [scored]) =
        countComposite serde sources projections (countAll serde sources projections documents)
          scored := by
      simp [countAll]
    rw [last, List.countP_append, List.countP_singleton]
    cases present : compositeValues sources projections scored with
    | none =>
      simp only [countComposite, present, documentTuple, Option.map_none, reduceCtorEq, decide_false,
        Bool.false_eq_true, if_false, Nat.add_zero]
      exact ih
    | some values =>
      have tupled : documentTuple serde sources projections scored =
          some (values.map (.fromValue serde)) := by simp [documentTuple, present]
      simp only [countComposite, present, tupled, SortedMap.get?_upsert, Option.some.injEq,
        decide_eq_true_eq]
      by_cases here : tuple = values.map (.fromValue serde)
      · subst here
        simp only [if_true]
        cases found : (countAll serde sources projections documents).get?
            (values.map (.fromValue serde)) with
        | none =>
          rw [found] at ih
          exact ⟨rfl, compositeValues_length present, Nat.one_pos, by rw [ih]⟩
        | some entry =>
          rw [found] at ih
          obtain ⟨same, aligned, positive, counted⟩ := ih
          exact ⟨same, aligned, Nat.succ_pos _, congrArg (· + 1) counted⟩
      · simp only [if_neg here, if_neg (Ne.symm here), Nat.add_zero]
        exact ih

theorem mem_countAll {documents : List (ScoredDocument Score)}
    {entry : List TermsKey × List Value × Nat}
    (member : entry ∈ (countAll serde sources projections documents).entries) :
    entry.2.1.map (.fromValue serde) = entry.1 ∧ entry.2.1.length = sources.length ∧
      0 < entry.2.2 ∧ entry.2.2 = documents.countP fun scored =>
        documentTuple serde sources projections scored = some entry.1 := by
  have found := ((countAll serde sources projections documents).get?_eq_some_iff entry.1 entry.2).mpr
    member
  have counted := @countAll_get? _ serde sources projections documents entry.1
  rw [found] at counted
  exact counted

theorem mem_countAll_keys (documents : List (ScoredDocument Score)) (tuple : List TermsKey) :
    tuple ∈ (countAll serde sources projections documents).keys ↔
      ∃ scored ∈ documents, documentTuple serde sources projections scored = some tuple := by
  have counted := @countAll_get? _ serde sources projections documents tuple
  rw [SortedMap.mem_keys_iff]
  cases found : (countAll serde sources projections documents).get? tuple with
  | none =>
    rw [found] at counted
    have absent := List.countP_eq_zero.mp counted
    simpa using absent
  | some entry =>
    rw [found] at counted
    obtain ⟨-, -, positive, same⟩ := counted
    rw [same, List.countP_pos_iff] at positive
    simpa using positive

theorem sum_map_eq_count {K : Type} [DecidableEq K] (key : K) (keys : List K) :
    (keys.map fun other => if some key = some other then 1 else 0).sum = keys.count key := by
  induction keys with
  | nil => rfl
  | cons other keys ih =>
    rw [List.map_cons, List.sum_cons, ih, List.count_cons, Nat.add_comm]
    by_cases same : key = other
    · simp [same]
    · simp [same, Ne.symm same]

theorem sum_countP_keys {α K : Type} [DecidableEq K] (f : α → Option K) {keys : List K}
    (distinct : keys.Nodup) (items : List α) (known : ∀ item ∈ items, ∀ key, f item = some key → key ∈ keys) :
    (keys.map fun key => items.countP fun item => f item = some key).sum =
      items.countP fun item => (f item).isSome := by
  induction items with
  | nil => simp
  | cons item items ih =>
    have before := ih fun other member => known other (List.mem_cons_of_mem _ member)
    simp only [List.countP_cons, List.sum_map_add, before, decide_eq_true_eq]
    congr 1
    cases keyed : f item with
    | none => simp
    | some key =>
      have once : keys.count key = 1 :=
        List.count_eq_one_of_mem distinct (known item List.mem_cons_self key keyed)
      rw [sum_map_eq_count, once]
      rfl

end Counts

section Keys

variable {serde sources}

theorem keyObject_get? (distinct : (sources.map CompositeSource.name).Nodup) {values : List Value}
    (aligned : values.length = sources.length) (object : SortedMap String Value) :
    (∀ name, name ∉ sources.map CompositeSource.name →
      ((sources.zip values).foldl (fun object (source, value) =>
        object.upsert source.name fun _ => value) object).get? name = object.get? name) ∧
    sources.map (fun source => ((sources.zip values).foldl (fun object (source, value) =>
      object.upsert source.name fun _ => value) object).get? source.name) = values.map some := by
  induction sources generalizing values object with
  | nil =>
    obtain rfl := List.length_eq_zero_iff.mp aligned
    exact ⟨fun _ _ => rfl, rfl⟩
  | cons source sources ih =>
    obtain ⟨value, rest, rfl⟩ := List.exists_cons_of_length_eq_add_one aligned
    obtain ⟨fresh, distinct⟩ := List.nodup_cons.mp distinct
    obtain ⟨others, same⟩ := ih distinct (Nat.succ.inj aligned) (object.upsert source.name fun _ => value)
    simp only [List.zip_cons_cons, List.foldl_cons, List.map_cons]
    constructor
    · intro name missing
      obtain ⟨other, missing⟩ := not_or.mp (mt List.mem_cons.mpr missing)
      rw [others name missing, SortedMap.get?_upsert, if_neg other]
    · rw [others source.name fresh, SortedMap.get?_upsert, if_pos rfl, same]

theorem afterKeyOf_bucketOf (entry : List TermsKey × List Value × Nat) :
    afterKeyOf (bucketOf sources entry) = some (keyObject sources entry.2.1) :=
  congrArg some (SortedMap.empty_extend (keyObject sources entry.2.1))

theorem cursorTerms_keyObject (distinct : (sources.map CompositeSource.name).Nodup)
    {values : List Value} (aligned : values.length = sources.length) :
    cursorTerms serde sources (keyObject sources values) = values.map (.fromValue serde) := by
  have same := (keyObject_get? distinct aligned .empty).2
  have read := congrArg (List.map fun value : Option Value => TermsKey.fromValue serde (value.getD .null))
    same
  rw [List.map_map, List.map_map] at read
  exact read

theorem bucketTuple_bucketOf (entry : List TermsKey × List Value × Nat) :
    bucketTuple serde sources (bucketOf sources entry) =
      cursorTerms serde sources (keyObject sources entry.2.1) := rfl

end Keys

section Pages

variable {serde sources projections} {documents : List (ScoredDocument Score)} {size : Nat}

/- The pages from the first one on, each after the key of the one before. -/
def compositePages (serde : Serde) (documents : List (ScoredDocument Score))
    (sources : List CompositeSource) (size : Nat) (projections : SubfieldProjections) (fuel : Nat) :
    Option (List (List AggBucket)) :=
  Paging.walk (fun after =>
    let result := computeCompositeAggregation serde documents sources size after projections
    (result.buckets, result.afterKey)) fuel none

theorem computeCompositeAggregation_eq (after : Option (SortedMap String Value)) :
    computeCompositeAggregation serde documents sources size after projections =
      let page := Paging.fetch Prod.fst (cursorTerms serde sources)
        (fun entry => keyObject sources entry.2.1) size
        (countAll serde sources projections documents).entries after
      { buckets := page.1.map (bucketOf sources), afterKey := page.2 } := by
  have left : (countAll serde sources projections documents).entries.filter
      (isAfter serde sources after) = Paging.remaining Prod.fst (cursorTerms serde sources)
        (countAll serde sources projections documents).entries after := by
    cases after with
    | none => simp [Paging.remaining, isAfter]
    | some cursor => exact List.filter_congr fun entry _ => decide_eq_decide.mpr Iff.rfl
  have counts : documents.foldl (countComposite serde sources projections) .empty =
      countAll serde sources projections documents := rfl
  unfold computeCompositeAggregation Paging.fetch
  simp only [counts, left]
  generalize Paging.remaining Prod.fst (cursorTerms serde sources)
    (countAll serde sources projections documents).entries after = rest
  have truncated : (((rest.take size).map (bucketOf sources)).length = size ∧ rest.length > size) ↔
      size < rest.length := by
    rw [List.length_map, List.length_take]
    omega
  simp only [truncated, List.getLast?_map]
  congr 2
  cases (rest.take size).getLast? with
  | none => rfl
  | some entry => exact afterKeyOf_bucketOf entry

/-- Iterating a composite aggregation over unchanged documents gives every tuple of the documents
exactly once, in ascending order, with all documents of the tuple, and it ends. -/
theorem composite_pages_partition (serde : Serde) (documents : List (ScoredDocument Score))
    (sources : List CompositeSource) (size : Nat) (projections : SubfieldProjections)
    (distinct : (sources.map CompositeSource.name).Nodup) (positive : 1 ≤ size) :
    ∃ fuel pages, compositePages serde documents sources size projections fuel = some pages ∧
      (pages.flatten.map (bucketTuple serde sources)).Pairwise (· < ·) ∧
      (∀ tuple, tuple ∈ pages.flatten.map (bucketTuple serde sources) ↔
        ∃ scored ∈ documents, HasTuple serde sources projections scored tuple) ∧
      (∀ bucket ∈ pages.flatten, bucket.docCount = documents.countP fun scored =>
        HasTuple serde sources projections scored (bucketTuple serde sources bucket)) ∧
      (pages.flatten.map AggBucket.docCount).sum =
        documents.countP fun scored => HasAll sources projections scored := by
  set counts := countAll serde sources projections documents with counts_eq
  have sorted : counts.entries.Pairwise fun x y => x.1 < y.1 := List.pairwise_map.mp counts.sorted
  have placed : ∀ entry ∈ counts.entries,
      cursorTerms serde sources (keyObject sources entry.2.1) = entry.1 := by
    intro entry member
    obtain ⟨same, aligned, -⟩ := mem_countAll member
    rw [cursorTerms_keyObject distinct aligned, same]
  have start : Paging.remaining Prod.fst (cursorTerms serde sources) counts.entries none =
      counts.entries := rfl
  obtain ⟨pages, walked, joined⟩ := Paging.walk_fetch sorted placed positive
    (counts.entries.length + 1) (List.nil_append _).symm start (Nat.lt_succ_self _)
  have buckets : (pages.map fun page => page.map (bucketOf sources)).flatten =
      counts.entries.map (bucketOf sources) := by
    rw [← joined, List.map_flatten]
  have tuples : (counts.entries.map (bucketOf sources)).map (bucketTuple serde sources) =
      counts.keys := by
    rw [List.map_map]
    exact List.map_congr_left placed
  refine ⟨counts.entries.length + 1, pages.map fun page => page.map (bucketOf sources), ?_, ?_, ?_,
    ?_, ?_⟩
  · unfold compositePages
    simp only [computeCompositeAggregation_eq]
    rw [Paging.walk_map (List.map (bucketOf sources)), walked]
    rfl
  · rw [buckets, tuples]
    exact counts.sorted
  · intro tuple
    rw [buckets, tuples]
    simp only [← documentTuple_eq_some_iff]
    exact mem_countAll_keys documents tuple
  · intro bucket member
    rw [buckets] at member
    obtain ⟨entry, inside, rfl⟩ := List.mem_map.mp member
    rw [bucketTuple_bucketOf, placed entry inside]
    simp only [← documentTuple_eq_some_iff]
    exact (mem_countAll inside).2.2.2
  · have counted : (counts.entries.map (bucketOf sources)).map AggBucket.docCount =
        counts.keys.map fun tuple => documents.countP fun scored =>
          documentTuple serde sources projections scored = some tuple := by
      rw [List.map_map, SortedMap.keys, List.map_map]
      exact List.map_congr_left fun entry inside => (mem_countAll inside).2.2.2
    rw [buckets, counted, sum_countP_keys _ counts.keys_nodup]
    · simp [documentTuple, ← compositeValues_isSome_iff]
    · intro scored member tuple tupled
      exact (mem_countAll_keys documents tuple).mpr ⟨scored, member, tupled⟩

def byKeyword : List CompositeSource := [{ name := "k", kind := .terms "f" }]

def keywordHits : List (ScoredDocument Nat) :=
  ["b", "a", "b"].map fun value =>
    { doc := { docId := 0, index := "i", id := "d", source := .object [("f", .string value)] }
      score := 0 }

def shownPage (page : List AggBucket) : List (List TermsKey × Nat) :=
  page.map fun bucket => (bucketTuple (knownSerde []) byKeyword bucket, bucket.docCount)

theorem composite_pages_partition_byKeyword :
    ∃ fuel pages, compositePages (knownSerde []) keywordHits byKeyword 1 ⟨.empty⟩ fuel = some pages ∧
      pages.map shownPage = [[([.string "a"], 1)], [([.string "b"], 2)]] ∧
      (pages.flatten.map (bucketTuple (knownSerde []) byKeyword)).Pairwise (· < ·) ∧
      (pages.flatten.map AggBucket.docCount).sum =
        keywordHits.countP fun scored => HasAll byKeyword ⟨.empty⟩ scored := by
  obtain ⟨fuel, pages, walked, ordered, -, -, counted⟩ := composite_pages_partition (knownSerde [])
    keywordHits byKeyword 1 ⟨.empty⟩ (by decide) (by decide)
  have evaluated : (compositePages (knownSerde []) keywordHits byKeyword 1 ⟨.empty⟩ 3).map
      (List.map shownPage) = some [[([.string "a"], 1)], [([.string "b"], 2)]] := by decide +kernel
  obtain ⟨pages', walked', shown⟩ := Option.map_eq_some_iff.mp evaluated
  obtain rfl : pages = pages' := Paging.walk_unique walked walked'
  exact ⟨fuel, pages, walked, shown, ordered, counted⟩

end Pages

end Surch.Api
