import Surch.Codec.Blocked
import Surch.Postings.Builder

/-! What a dictionary is for: every field and term with its postings in document order. Building
inverts the additions, merging concatenates, and over ascending ranges of documents the two
commute. -/
namespace Surch.Postings
open Surch.Lib Surch.Codec

abbrev TermPostings := List Nat × List Nat

def termPostings (postings : List Posting) : TermPostings :=
  ((settle postings).map Posting.docId, (settle postings).map Posting.freq)

abbrev Inverted := SortedMap String (SortedMap String TermPostings)

def PostingsBuilder.invert (builder : PostingsBuilder) : Inverted :=
  builder.fields.map fun terms => terms.map termPostings

def concatPostings (parts : List TermPostings) : TermPostings :=
  (parts.flatMap Prod.fst, parts.flatMap Prod.snd)

def mergeInverted (sources : List Inverted) : Inverted :=
  .ofKeys (sources.flatMap SortedMap.keys) fun field =>
    let participants := sources.filterMap fun source => source.get? field
    .ofKeys (participants.flatMap SortedMap.keys) fun term =>
      concatPostings (participants.filterMap fun terms => terms.get? term)

section Nested

variable {V : Type}

def find (fields : SortedMap String (SortedMap String V)) (field term : String) : Option V :=
  (fields.get? field).bind fun terms => terms.get? term

/-- Two-level maps agree when they have the same fields and find the same values. -/
theorem nested_ext {m n : SortedMap String (SortedMap String V)}
    (fields : ∀ f, (m.get? f).isSome = (n.get? f).isSome) (terms : ∀ f t, find m f t = find n f t) :
    m = n := by
  apply SortedMap.ext_get?
  intro f
  have present := fields f
  have values := terms f
  simp only [find] at values
  cases here : m.get? f with
  | none =>
    rw [here] at present
    cases there : n.get? f with
    | none => rfl
    | some b => simp [there] at present
  | some a =>
    rw [here] at present values
    cases there : n.get? f with
    | none => simp [there] at present
    | some b =>
      rw [there] at values
      exact congrArg some (SortedMap.ext_get? values)

end Nested

namespace Addition

def accepted (a : Addition) : Bool := !isBlank a.field && !isBlank a.term

def posting (a : Addition) : Posting := ⟨a.docId, freqFromPositions a.positions⟩

def postingsOf (additions : List Addition) (field term : String) : List Posting :=
  additions.filterMap fun a =>
    if a.accepted ∧ a.field = field ∧ a.term = term then some a.posting else none

end Addition

open Addition

theorem freqFromPositions_lt (positions : List Nat) : freqFromPositions positions < 2 ^ 32 := by
  unfold freqFromPositions
  split <;> omega

theorem addAll_append_singleton (builder : PostingsBuilder) (additions : List Addition)
    (a : Addition) :
    builder.addAll (additions ++ [a]) =
      if a.accepted then (builder.addAll additions).push a.field a.term a.posting
      else builder.addAll additions := by
  rw [PostingsBuilder.addAll, List.foldl_append, List.foldl_cons, List.foldl_nil,
    ← PostingsBuilder.addAll, PostingsBuilder.add, accepted]
  by_cases field : isBlank a.field = true
  · simp [field, Except.toOption]
  · by_cases term : isBlank a.term = true
    · simp [field, term, Except.toOption]
    · simp [field, term, Except.toOption, posting]

theorem find_push (builder : PostingsBuilder) (field term : String) (p : Posting) (f t : String) :
    find (builder.push field term p).fields f t =
      if f = field ∧ t = term then some ((find builder.fields f t).getD [] ++ [p])
      else find builder.fields f t := by
  rw [find, find, PostingsBuilder.push, SortedMap.get?_upsert]
  by_cases field_eq : f = field
  · subst field_eq
    cases builder.fields.get? f with
    | none =>
      by_cases term_eq : t = term <;> simp [term_eq]
    | some terms =>
      by_cases term_eq : t = term <;> simp [term_eq]
  · simp [field_eq]

theorem postingsOf_append_singleton (additions : List Addition) (a : Addition) (f t : String) :
    postingsOf (additions ++ [a]) f t =
      if a.accepted ∧ a.field = f ∧ a.term = t then postingsOf additions f t ++ [a.posting]
      else postingsOf additions f t := by
  rw [postingsOf, List.filterMap_append]
  split <;> rename_i same <;> simp [same, postingsOf]

/-- The builder holds exactly the accepted additions, grouped. -/
theorem find_addAll (additions : List Addition) (f t : String) :
    find (PostingsBuilder.new.addAll additions).fields f t =
      if postingsOf additions f t = [] then none else some (postingsOf additions f t) := by
  induction additions using List.reverseRecOn with
  | nil => rfl
  | append_singleton additions a ih =>
    rw [addAll_append_singleton, postingsOf_append_singleton]
    by_cases taken : a.accepted = true
    · rw [if_pos taken, find_push, ih]
      by_cases same : f = a.field ∧ t = a.term
      · obtain ⟨rfl, rfl⟩ := same
        simp only [taken, and_self, if_true]
        by_cases empty : postingsOf additions a.field a.term = [] <;> simp [empty]
      · have distinct : ¬ (a.accepted = true ∧ a.field = f ∧ a.term = t) := fun h =>
          same ⟨h.2.1.symm, h.2.2.symm⟩
        rw [if_neg same, if_neg distinct]
    · have refused : ¬ (a.accepted = true ∧ a.field = f ∧ a.term = t) := fun h => taken h.1
      rw [if_neg taken, if_neg refused, ih]

theorem field_present (additions : List Addition) (f : String) :
    ((PostingsBuilder.new.addAll additions).fields.get? f).isSome =
      additions.any fun a => a.accepted && a.field == f := by
  induction additions using List.reverseRecOn with
  | nil => rfl
  | append_singleton additions a ih =>
    rw [addAll_append_singleton, List.any_append, ← ih]
    by_cases taken : a.accepted = true
    · rw [if_pos taken, PostingsBuilder.push, SortedMap.get?_upsert]
      by_cases same : f = a.field
      · simp [same, taken]
      · simp [same, Ne.symm same]
    · simp [taken]

theorem find_invert (builder : PostingsBuilder) (f t : String) :
    find builder.invert f t = (find builder.fields f t).map termPostings := by
  rw [find, find, PostingsBuilder.invert, SortedMap.get?_map]
  cases builder.fields.get? f <;> simp

theorem invert_field (builder : PostingsBuilder) (f : String) :
    (builder.invert.get? f).isSome = (builder.fields.get? f).isSome := by
  rw [PostingsBuilder.invert, SortedMap.get?_map, Option.isSome_map]

theorem mergeInverted_field (sources : List Inverted) (f : String) :
    ((mergeInverted sources).get? f).isSome = sources.any fun source => (source.get? f).isSome := by
  rw [mergeInverted, SortedMap.get?_ofKeys]
  by_cases present : f ∈ sources.flatMap SortedMap.keys
  · obtain ⟨source, member, key⟩ := List.mem_flatMap.mp present
    obtain ⟨terms, found⟩ := (source.mem_keys_iff f).mp key
    have any : (sources.any fun source => (source.get? f).isSome) = true :=
      List.any_eq_true.mpr ⟨source, member, by rw [found]; rfl⟩
    rw [if_pos present, any]
    rfl
  · have none_found : (sources.any fun source => (source.get? f).isSome) = false := by
      rw [List.any_eq_false]
      intro source member found
      obtain ⟨terms, value⟩ := Option.isSome_iff_exists.mp found
      exact present (List.mem_flatMap.mpr ⟨source, member, (source.mem_keys_iff f).mpr ⟨_, value⟩⟩)
    rw [if_neg present, none_found]
    rfl

theorem find_mergeInverted (sources : List Inverted) (f t : String) :
    find (mergeInverted sources) f t =
      if (sources.filterMap fun source => find source f t) = [] then none
      else some (concatPostings (sources.filterMap fun source => find source f t)) := by
  have nested : (sources.filterMap fun source => find source f t) =
      (sources.filterMap fun source => source.get? f).filterMap fun terms => terms.get? t := by
    rw [List.filterMap_filterMap]
    rfl
  have present : t ∈ (sources.filterMap fun source => source.get? f).flatMap SortedMap.keys ↔
      (sources.filterMap fun source => find source f t) ≠ [] := by
    rw [nested, List.mem_flatMap]
    constructor
    · rintro ⟨terms, member, key⟩
      obtain ⟨v, found⟩ := (terms.mem_keys_iff t).mp key
      exact List.ne_nil_of_mem (List.mem_filterMap.mpr ⟨terms, member, found⟩)
    · intro nonempty
      obtain ⟨v, member⟩ := List.exists_mem_of_ne_nil _ nonempty
      obtain ⟨terms, inside, found⟩ := List.mem_filterMap.mp member
      exact ⟨terms, inside, (terms.mem_keys_iff t).mpr ⟨v, found⟩⟩
  rw [find, mergeInverted, SortedMap.get?_ofKeys]
  by_cases field : f ∈ sources.flatMap SortedMap.keys
  · rw [if_pos field, Option.bind_some, SortedMap.get?_ofKeys, ← nested]
    by_cases term : t ∈ (sources.filterMap fun source => source.get? f).flatMap SortedMap.keys
    · rw [if_pos term, if_neg (present.mp term)]
    · rw [if_neg term, if_pos (not_not.mp (mt present.mpr term))]
  · have absent : (sources.filterMap fun source => find source f t) = [] := by
      rw [List.filterMap_eq_nil_iff]
      intro source member
      have missing : source.get? f = none := (source.get?_eq_none_iff f).mpr fun key =>
        field (List.mem_flatMap.mpr ⟨source, member, key⟩)
      rw [find, missing]
      rfl
    rw [if_neg field, if_pos absent]
    rfl

theorem termPostings_flatten (groups : List (List Posting)) (ascending : groups.Pairwise Before) :
    termPostings groups.flatten = concatPostings (groups.map termPostings) := by
  rw [termPostings, settle_flatten groups ascending, concatPostings, List.flatMap_map,
    List.flatMap_map, List.map_flatMap, List.map_flatMap]
  rfl

def Ascending (groups : List (List Addition)) : Prop :=
  groups.Pairwise fun group later => ∀ a ∈ group, ∀ b ∈ later, a.docId < b.docId

theorem postingsOf_flatten (groups : List (List Addition)) (f t : String) :
    postingsOf groups.flatten f t = (groups.map fun group => postingsOf group f t).flatten := by
  induction groups with
  | nil => rfl
  | cons group groups ih =>
    rw [List.flatten_cons, List.map_cons, List.flatten_cons, ← ih, postingsOf,
      List.filterMap_append]
    rfl

theorem mem_postingsOf {additions : List Addition} {f t : String} {p : Posting}
    (member : p ∈ postingsOf additions f t) : ∃ a ∈ additions, p = a.posting := by
  obtain ⟨a, inside, value⟩ := List.mem_filterMap.mp member
  split at value
  · exact ⟨a, inside, (Option.some.inj value).symm⟩
  · cases value

/-- Merging what was built from ascending groups is building from all of them. -/
theorem mergeInverted_invert (groups : List (List Addition)) (ascending : Ascending groups) :
    mergeInverted (groups.map fun group => (PostingsBuilder.new.addAll group).invert) =
      (PostingsBuilder.new.addAll groups.flatten).invert := by
  apply nested_ext
  · intro f
    rw [mergeInverted_field, invert_field, field_present, List.any_map]
    induction groups with
    | nil => rfl
    | cons group groups ih =>
      rw [List.any_cons, List.flatten_cons, List.any_append,
        ih (List.pairwise_cons.mp ascending).2]
      simp only [Function.comp_apply, invert_field, field_present]
  · intro f t
    have parts : (groups.map fun group => (PostingsBuilder.new.addAll group).invert).filterMap
          (fun source => find source f t) =
        ((groups.map fun group => postingsOf group f t).filter (· ≠ [])).map termPostings := by
      rw [List.filterMap_map]
      induction groups with
      | nil => rfl
      | cons group groups ih =>
        have rest := ih (List.pairwise_cons.mp ascending).2
        rw [List.filterMap_cons, List.map_cons, List.filter_cons, Function.comp_apply, find_invert,
          find_addAll]
        by_cases empty : postingsOf group f t = []
        · simp only [empty, if_true, Option.map_none, ne_eq, not_true_eq_false, decide_false]
          exact rest
        · simp only [empty, if_false, Option.map_some, ne_eq, not_false_eq_true, decide_true,
            if_true, List.map_cons]
          rw [rest]
    have flat : postingsOf groups.flatten f t =
        ((groups.map fun group => postingsOf group f t).filter (· ≠ [])).flatten := by
      rw [postingsOf_flatten]
      have := List.flatten_filter_ne_nil (L := groups.map fun group => postingsOf group f t)
      exact this.symm
    have before : ((groups.map fun group => postingsOf group f t).filter (· ≠ [])).Pairwise
        Before := by
      apply List.Pairwise.filter
      rw [List.pairwise_map]
      refine ascending.imp ?_
      intro group later below p first q second
      obtain ⟨a, ha, rfl⟩ := mem_postingsOf first
      obtain ⟨b, hb, rfl⟩ := mem_postingsOf second
      exact below a ha b hb
    rw [find_mergeInverted, parts, find_invert, find_addAll, flat]
    by_cases empty : (groups.map fun group => postingsOf group f t).filter (· ≠ []) = []
    · rw [empty]
      rfl
    · have some_left : ((groups.map fun group => postingsOf group f t).filter
          (· ≠ [])).flatten ≠ [] := by
        obtain ⟨part, member⟩ := List.exists_mem_of_ne_nil _ empty
        have nonempty : part ≠ [] := by simpa using (List.mem_filter.mp member).2
        intro absurd_nil
        exact nonempty (List.flatten_eq_nil_iff.mp absurd_nil part member)
      rw [if_neg (by simpa using empty), if_neg some_left, Option.map_some,
        termPostings_flatten _ before]

/-- Whatever was added, a term's postings are what the codec accepts. -/
theorem invert_isPostings {additions : List Addition} {f t : String} {docIds freqs : List Nat}
    (found : find (PostingsBuilder.new.addAll additions).invert f t = some (docIds, freqs)) :
    IsPostings docIds freqs ∧ docIds ≠ [] := by
  rw [find_invert, find_addAll] at found
  split at found
  · cases found
  rename_i nonempty
  cases found
  have added : ∀ p ∈ postingsOf additions f t, p.freq < 2 ^ 32 := by
    intro p member
    obtain ⟨a, _, rfl⟩ := mem_postingsOf member
    exact freqFromPositions_lt _
  have freqs_fit := settle_freqs added
  refine ⟨⟨?_, ?_, ?_, ?_⟩, ?_⟩
  · rw [List.length_map, List.length_map]
  · exact List.isChain_iff_pairwise.mpr (settle_increasing _)
  · intro d member
    obtain ⟨p, inside, rfl⟩ := List.mem_map.mp (mem_settle_docIds member)
    obtain ⟨a, _, rfl⟩ := mem_postingsOf inside
    exact a.docId_fits
  · intro f member
    obtain ⟨p, inside, rfl⟩ := List.mem_map.mp member
    exact freqs_fit p inside
  · rw [ne_eq, List.map_eq_nil_iff, settle_eq_nil_iff]
    exact nonempty

end Surch.Postings
