import Surch.Postings.Merging

/-! What a build makes of its additions, whatever their order: the pairs that were added, each with
its documents in order, their occurrences summed, and the channels derived from them. -/
namespace Surch.Postings
open Surch.Lib Surch.Codec

variable {Digest : Type} {hash : List UInt8 → Digest} {diskEnabled : Bool}
  {additions permuted : List Addition}

section Settle

def tally (postings : List Posting) (d : Nat) : Nat :=
  min ((postings.filter fun p => p.docId = d).map Posting.freq).sum (2 ^ 32 - 1)

theorem tally_perm {first second : List Posting} (permutation : first.Perm second) (d : Nat) :
    tally first d = tally second d := by
  have counts := ((permutation.filter fun p => p.docId = d).map Posting.freq).sum_eq
  simp only [tally, counts]

theorem tally_merge {write read : Posting} (same : read.docId = write.docId)
    (rest : List Posting) (d : Nat) :
    tally ({ write with freq := saturatingAddU32 write.freq read.freq } :: rest) d =
      tally (write :: read :: rest) d := by
  by_cases here : write.docId = d
  · simp [tally, saturatingAddU32, same, here]
    omega
  · simp [tally, same, here]

theorem tally_cons_of_ne {p : Posting} {d : Nat} (apart : p.docId ≠ d) (rest : List Posting) :
    tally (p :: rest) d = tally rest d := by
  simp [tally, apart]

theorem tally_alone {p : Posting} (fits : p.freq < 2 ^ 32) {rest : List Posting}
    (above : ∀ q ∈ rest, p.docId < q.docId) : p.freq = tally (p :: rest) p.docId := by
  have none_left : rest.filter (fun q => q.docId = p.docId) = [] := by
    simp only [List.filter_eq_nil_iff, decide_eq_true_eq]
    intro q member
    exact (above q member).ne'
  simp [tally, none_left]
  omega

theorem dedupFrom_tally {write : Posting} {postings : List Posting}
    (sorted : (write :: postings).Pairwise fun a b => a.docId ≤ b.docId)
    (fit : ∀ p ∈ write :: postings, p.freq < 2 ^ 32) :
    ∀ p ∈ dedupFrom write postings, p.freq = tally (write :: postings) p.docId := by
  induction postings generalizing write with
  | nil =>
    intro p member
    obtain rfl : p = write := by simpa [dedupFrom] using member
    exact tally_alone (fit p List.mem_cons_self) (by simp)
  | cons read rest ih =>
    obtain ⟨above, tail⟩ := List.pairwise_cons.mp sorted
    obtain ⟨small, later⟩ := List.forall_mem_cons.mp fit
    intro p member
    simp only [dedupFrom] at member
    split at member
    · rename_i same
      obtain ⟨_, rest_sorted⟩ := List.pairwise_cons.mp tail
      have ordered : ({ write with freq := saturatingAddU32 write.freq read.freq } ::
          rest).Pairwise fun a b => a.docId ≤ b.docId := by
        refine List.pairwise_cons.mpr ⟨?_, rest_sorted⟩
        exact fun q inside => above q (List.mem_cons_of_mem _ inside)
      have bounded : ∀ q ∈ { write with freq := saturatingAddU32 write.freq read.freq } :: rest,
          q.freq < 2 ^ 32 := by
        refine List.forall_mem_cons.mpr ⟨?_, fun q inside => later q (List.mem_cons_of_mem _ inside)⟩
        simp only [saturatingAddU32]
        omega
      exact (ih ordered bounded p member).trans (tally_merge same rest p.docId)
    · rename_i distinct
      have below : ∀ q ∈ read :: rest, write.docId < q.docId := by
        have step : write.docId < read.docId := by
          have := above read List.mem_cons_self
          omega
        intro q inside
        rcases List.mem_cons.mp inside with rfl | inside
        · exact step
        · exact step.trans_le ((List.pairwise_cons.mp tail).1 q inside)
      rcases List.mem_cons.mp member with rfl | member
      · exact tally_alone small below
      · have here : p.docId ∈ (dedupFrom read rest).map Posting.docId :=
          List.mem_map_of_mem member
        have apart : write.docId ≠ p.docId := by
          rcases dedupFrom_docIds read rest _ here with first | others
          · have := below read List.mem_cons_self
            omega
          · obtain ⟨q, inside, value⟩ := List.mem_map.mp others
            have := below q (List.mem_cons_of_mem _ inside)
            omega
        exact (ih tail later p member).trans (tally_cons_of_ne apart _).symm

theorem docIds_dedupFrom (write : Posting) (postings : List Posting) :
    ∀ d ∈ (write :: postings).map Posting.docId,
      d ∈ (dedupFrom write postings).map Posting.docId := by
  induction postings generalizing write with
  | nil => simp [dedupFrom]
  | cons read rest ih =>
    intro d member
    simp only [List.map_cons, List.mem_cons] at member
    simp only [dedupFrom]
    split
    · rename_i same
      apply ih
      simp only [List.map_cons, List.mem_cons]
      rcases member with here | next | later
      · exact .inl here
      · exact .inl (next.trans same)
      · exact .inr later
    · rcases member with here | later
      · exact List.mem_cons.mpr (.inl here)
      · exact List.mem_cons_of_mem _ (ih read d (List.mem_cons.mpr later))

theorem mem_settle_docIds_iff (postings : List Posting) (d : Nat) :
    d ∈ (settle postings).map Posting.docId ↔ d ∈ postings.map Posting.docId := by
  refine ⟨mem_settle_docIds, ?_⟩
  intro member
  obtain ⟨p, inside, rfl⟩ := List.mem_map.mp member
  have sorted := mem_sortByDocId.mpr inside
  simp only [settle]
  cases shape : sortByDocId postings with
  | nil => simp [shape] at sorted
  | cons first rest =>
    rw [shape] at sorted
    exact docIds_dedupFrom first rest p.docId (List.mem_map_of_mem sorted)

theorem settle_tally {postings : List Posting} (fit : ∀ p ∈ postings, p.freq < 2 ^ 32) :
    ∀ p ∈ settle postings, p.freq = tally postings p.docId := by
  intro p member
  have sorted := sortByDocId_sorted postings
  have small : ∀ q ∈ sortByDocId postings, q.freq < 2 ^ 32 := fun q inside =>
    fit q (mem_sortByDocId.mp inside)
  have whole : tally (sortByDocId postings) p.docId = tally postings p.docId :=
    tally_perm (List.perm_insertionSort _ _) _
  rw [settle] at member
  cases shape : sortByDocId postings with
  | nil => simp [shape, dedupMergePostings] at member
  | cons first rest =>
    rw [shape] at member sorted small whole
    exact (dedupFrom_tally sorted small p member).trans whole

theorem settle_freqs_eq {postings : List Posting} (fit : ∀ p ∈ postings, p.freq < 2 ^ 32) :
    (settle postings).map Posting.freq =
      ((settle postings).map Posting.docId).map (tally postings) := by
  simp only [List.map_map]
  apply List.map_congr_left
  intro p member
  exact settle_tally fit p member

theorem termPostings_perm {first second : List Posting} (permutation : first.Perm second)
    (fit : ∀ p ∈ first, p.freq < 2 ^ 32) : termPostings first = termPostings second := by
  have fit_second : ∀ p ∈ second, p.freq < 2 ^ 32 := fun p member =>
    fit p (permutation.mem_iff.mpr member)
  have docs : (settle first).map Posting.docId = (settle second).map Posting.docId := by
    apply List.Pairwise.eq_of_mem_iff (settle_increasing first) (settle_increasing second)
    intro d
    simp only [mem_settle_docIds_iff, (permutation.map Posting.docId).mem_iff]
  have tallies : tally first = tally second := funext (tally_perm permutation)
  simp only [termPostings, settle_freqs_eq fit, settle_freqs_eq fit_second, docs, tallies]

end Settle

open Addition

section Additions

def Addition.Adds (a : Addition) (field term : String) : Prop :=
  a.accepted = true ∧ a.field = field ∧ a.term = term

instance (a : Addition) (field term : String) : Decidable (a.Adds field term) :=
  inferInstanceAs (Decidable (_ ∧ _ ∧ _))

def occurrences (additions : List Addition) (field term : String) (d : Nat) : Nat :=
  ((additions.filter fun a => a.Adds field term ∧ a.docId = d).map fun a =>
    max 1 a.positions.length).sum

theorem postingsOf_eq (additions : List Addition) (field term : String) :
    postingsOf additions field term =
      (additions.filter fun a => a.Adds field term).map Addition.posting := by
  induction additions with
  | nil => rfl
  | cons a rest ih =>
    simp only [postingsOf] at ih
    by_cases adds : a.accepted = true ∧ a.field = field ∧ a.term = term
    · simp [postingsOf, ih, Addition.Adds, adds]
    · simp [postingsOf, ih, Addition.Adds, adds]

theorem postingsOf_freqs (additions : List Addition) (field term : String) :
    ∀ p ∈ postingsOf additions field term, p.freq < 2 ^ 32 := by
  intro p member
  obtain ⟨a, _, rfl⟩ := mem_postingsOf member
  exact freqFromPositions_lt _

theorem mem_postingsOf_docIds (additions : List Addition) (field term : String) (d : Nat) :
    d ∈ (postingsOf additions field term).map Posting.docId ↔
      ∃ a ∈ additions, a.Adds field term ∧ a.docId = d := by
  simp [postingsOf_eq, Addition.posting, and_assoc]

theorem postingsOf_ne_nil (additions : List Addition) (field term : String) :
    postingsOf additions field term ≠ [] ↔ ∃ a ∈ additions, a.Adds field term := by
  simp [postingsOf_eq]

theorem freqFromPositions_eq {positions : List Nat} (counted : positions.length < 2 ^ 32) :
    freqFromPositions positions = max 1 positions.length := by
  cases positions with
  | nil => rfl
  | cons first rest =>
    simp only [List.length_cons] at counted
    simp [freqFromPositions]
    omega

theorem tally_postingsOf (counted : ∀ a ∈ additions, a.positions.length < 2 ^ 32)
    (field term : String) (d : Nat) :
    tally (postingsOf additions field term) d =
      min (occurrences additions field term d) (2 ^ 32 - 1) := by
  have calls : (postingsOf additions field term).filter (fun p => p.docId = d) =
      (additions.filter fun a => a.Adds field term ∧ a.docId = d).map Addition.posting := by
    simp only [postingsOf_eq, List.filter_map, List.filter_filter]
    congr 1
    apply List.filter_congr
    intro a _
    have document : a.posting.docId = a.docId := rfl
    by_cases here : a.docId = d <;> by_cases adds : a.Adds field term <;>
      simp [document, here, adds]
  have counts : (additions.filter fun a => a.Adds field term ∧ a.docId = d).map
        (fun a => a.posting.freq) =
      (additions.filter fun a => a.Adds field term ∧ a.docId = d).map
        (fun a => max 1 a.positions.length) := by
    apply List.map_congr_left
    intro a member
    exact freqFromPositions_eq (counted a (List.mem_of_mem_filter member))
  simp only [tally, occurrences, calls, List.map_map, Function.comp_def, counts]

theorem postingsOf_perm (permutation : additions.Perm permuted) (field term : String) :
    (postingsOf additions field term).Perm (postingsOf permuted field term) :=
  permutation.filterMap _

theorem invert_perm (permutation : additions.Perm permuted) :
    (PostingsBuilder.new.addAll permuted).invert =
      (PostingsBuilder.new.addAll additions).invert := by
  apply nested_ext
  · intro f
    simp only [invert_field, field_present, permutation.any_eq]
  · intro f t
    have calls := postingsOf_perm permutation f t
    have read := termPostings_perm calls (postingsOf_freqs additions f t)
    have empty : postingsOf permuted f t = [] ↔ postingsOf additions f t = [] := by
      simp only [← List.length_eq_zero_iff, calls.length_eq]
    simp only [find_invert, find_addAll, empty]
    split
    · rfl
    · simp [read]

end Additions

section Maxima

theorem foldl_max_le (freqs : List Nat) (start : Nat) :
    start ≤ freqs.foldl max start ∧ ∀ f ∈ freqs, f ≤ freqs.foldl max start := by
  induction freqs generalizing start with
  | nil => simp
  | cons first rest ih =>
    obtain ⟨above, each⟩ := ih (max start first)
    simp only [List.foldl_cons, List.forall_mem_cons]
    exact ⟨by omega, by omega, each⟩

theorem foldl_max_mem (freqs : List Nat) (start : Nat) :
    freqs.foldl max start = start ∨ freqs.foldl max start ∈ freqs := by
  induction freqs generalizing start with
  | nil => simp
  | cons first rest ih =>
    simp only [List.foldl_cons, List.mem_cons]
    rcases ih (max start first) with same | later
    · omega
    · exact .inr (.inr later)

theorem maxFreq_isGreatest {freqs : List Nat} (nonempty : freqs ≠ []) :
    IsGreatest {f | f ∈ freqs} (maxFreq freqs) := by
  obtain ⟨_, each⟩ := foldl_max_le freqs 0
  refine ⟨?_, each⟩
  rcases foldl_max_mem freqs 0 with zero | member
  · obtain ⟨f, inside⟩ := List.exists_mem_of_ne_nil _ nonempty
    have least := each f inside
    have value : f = freqs.foldl max 0 := by omega
    simpa [maxFreq, ← value] using inside
  · exact member

structure ChunkMaxima (freqs : List Nat) (blocks : List BlockMeta) : Prop where
  count : blocks.length = (freqs.length + 127) / 128
  greatest : ∀ b block, blocks[b]? = some block →
    IsGreatest {f | ∃ i, i / 128 = b ∧ freqs[i]? = some f} block.maxTermFreq

theorem buildBlockMetas_maxima (freqs : List Nat) :
    ChunkMaxima freqs (buildBlockMetasFromFreqs freqs) := by
  constructor
  · exact (List.length_map _).trans (chunks_length forBlockSize_pos freqs)
  · intro b block found
    simp only [buildBlockMetasFromFreqs, List.getElem?_map, Option.map_eq_some_iff,
      chunks_getElem? forBlockSize_pos, blockSize, Option.ite_none_right_eq_some,
      Option.some.injEq] at found
    obtain ⟨chunk, ⟨inside, rfl⟩, rfl⟩ := found
    have nonempty : (freqs.drop (forBlockSize * b)).take forBlockSize ≠ [] := by
      simp [forBlockSize] at inside ⊢
      omega
    have members : {f | f ∈ (freqs.drop (forBlockSize * b)).take forBlockSize} =
        {f | ∃ i, i / 128 = b ∧ freqs[i]? = some f} := by
      ext f
      simp only [Set.mem_ofPred_eq, List.mem_iff_getElem?, List.getElem?_take, List.getElem?_drop,
        Option.ite_none_right_eq_some, forBlockSize]
      constructor
      · rintro ⟨i, small, value⟩
        exact ⟨128 * b + i, by omega, value⟩
      · rintro ⟨i, here, value⟩
        refine ⟨i - 128 * b, by omega, ?_⟩
        rwa [show 128 * b + (i - 128 * b) = i by omega]
    exact members ▸ maxFreq_isGreatest nonempty

end Maxima

section Skipped

theorem finishField_skipped (hash : List UInt8 → Digest) (diskEnabled : Bool) (fst : Fst)
    (channels : FieldChannels) (fieldOrdinal : Nat) (before : BuildState Digest) :
    (finishField hash diskEnabled fst channels fieldOrdinal before).1.postingsSkippedTerms =
      before.postingsSkippedTerms + channels.postingsSkippedTerms := by
  cases finished : finishField hash diskEnabled fst channels fieldOrdinal before with
  | mk after field =>
    obtain ⟨_, tables, _, persisted, _⟩ := finishField_steps hash finished
    rcases persist_cases hash persisted with kept | ⟨_, _, _, _, _, _, spilled⟩
    · exact kept.skipped
    · exact spilled.skipped

/-- Whatever was added, the codec refuses none of the terms of a field. -/
theorem none_skipped (additions : List Addition) {name : String}
    {terms : SortedMap String TermPostings}
    (at_field : (PostingsBuilder.new.addAll additions).invert.get? name = some terms)
    (diskEnabled : Bool) :
    (filled diskEnabled (terms.entries.map Prod.snd)).postingsSkippedTerms = 0 := by
  simp only [filled, List.countP_eq_zero, Bool.not_eq_true', Bool.not_eq_false]
  intro v member
  obtain ⟨⟨term, v⟩, inside, rfl⟩ := List.mem_map.mp member
  have found : find (PostingsBuilder.new.addAll additions).invert name term = some v := by
    simpa [find, at_field] using (terms.get?_eq_some_iff term v).mpr inside
  exact (encoded_term (invert_isPostings found).1).1

theorem buildWithLimit_skipped (hash : List UInt8 → Digest) (device : Device) (diskEnabled : Bool)
    (maxBytes : Nat) (additions : List Addition) :
    ((PostingsBuilder.new.addAll additions).buildWithLimit hash device diskEnabled
      maxBytes).postingsSkippedTerms = 0 := by
  rw [buildWithLimit_eq]
  obtain ⟨_, count, _⟩ :=
    ((PostingsBuilder.new.addAll additions).invert.map (fieldInput diskEnabled id)).mapAccum_rule
    (fun state fieldOrdinal _ field =>
      finishField hash diskEnabled field.1 field.2 fieldOrdinal state)
    { postingsSegment := PostingsSegment.tryNew device
      p2Integrity := .withMaxBytes maxBytes
      postingsSkippedTerms := 0 }
    (fun state _ => state.postingsSkippedTerms = 0)
    rfl
    (by
      intro state done name input member zero
      obtain ⟨⟨_, terms⟩, inside, given⟩ := List.mem_map.mp member
      cases given
      have at_field := (SortedMap.get?_eq_some_iff _ _ terms).mpr inside
      simp only [finishField_skipped, zero, fieldInput, none_skipped additions at_field])
  exact count

end Skipped

structure TermInverted (keepsMetas : Bool) (additions : List Addition)
    (dictionary : TermDictionary Digest) (field term : String) (docIds freqs : List Nat) :
    Prop where
  found : dictionary.termPostings field term = some (docIds, freqs)
  ascending : docIds.Pairwise (· < ·)
  docs : ∀ d, d ∈ docIds ↔ ∃ a ∈ additions, a.Adds field term ∧ a.docId = d
  counts : freqs = docIds.map fun d => min (occurrences additions field term d) (2 ^ 32 - 1)
  metas : keepsMetas = true →
    ∃ blocks, dictionary.blockMetas field term = some blocks ∧ ChunkMaxima freqs blocks
  roaring : dictionary.roaringSet field term =
    if 4096 < docIds.length then some (RoaringDocSet.fromSorted docIds) else none

/- The dictionary holds the pairs that were added and no others, each with its documents in order,
and the codec refused none of them. -/
structure FaithfulInversion (keepsMetas : Bool) (additions : List Addition)
    (dictionary : TermDictionary Digest) : Prop where
  fields_distinct : dictionary.fieldNames.Pairwise (· < ·)
  fields : ∀ field, field ∈ dictionary.fieldNames ↔
    ∃ a ∈ additions, a.accepted = true ∧ a.field = field
  terms_distinct : ∀ field, (dictionary.terms field).Pairwise (· < ·)
  terms : ∀ field term, term ∈ dictionary.terms field ↔ ∃ a ∈ additions, a.Adds field term
  term : ∀ field term, term ∈ dictionary.terms field →
    ∃ docIds freqs, TermInverted keepsMetas additions dictionary field term docIds freqs
  others : ∀ field term, term ∉ dictionary.terms field →
    dictionary.termPostings field term = none ∧ dictionary.blockMetas field term = none ∧
      dictionary.roaringSet field term = none
  skipped : dictionary.postingsSkippedTerms = 0

theorem find_additions (additions : List Addition) (field term : String) :
    (∃ v, find (PostingsBuilder.new.addAll additions).invert field term = some v) ↔
      ∃ a ∈ additions, a.Adds field term := by
  simp only [find_invert, find_addAll, Option.map_eq_some_iff, ← postingsOf_ne_nil]
  by_cases empty : postingsOf additions field term = []
  · simp [empty]
  · simp [empty]

theorem termInverted (serves : Serves hash diskEnabled
      (PostingsBuilder.new.addAll additions).invert dictionary)
    (counted : ∀ a ∈ additions, a.positions.length < 2 ^ 32) {field term : String}
    {docIds freqs : List Nat}
    (found : find (PostingsBuilder.new.addAll additions).invert field term = some (docIds, freqs)) :
    TermInverted (!diskEnabled) additions dictionary field term docIds freqs := by
  have fits := serves.fits
  have value := found
  simp only [find_invert, find_addAll] at value
  split at value
  · cases value
  cases value
  refine ⟨(serves.termPostings field term).trans found, settle_increasing _, ?_, ?_, ?_, ?_⟩
  · intro d
    simp only [mem_settle_docIds_iff, mem_postingsOf_docIds]
  · simp only [settle_freqs_eq (postingsOf_freqs additions field term)]
    apply List.map_congr_left
    intro d _
    exact tally_postingsOf counted field term d
  · intro keeps
    refine ⟨_, ?_, buildBlockMetas_maxima _⟩
    have memory : diskEnabled = false := by simpa using keeps
    simp [serves.assembled.blockMetas_eq fits, found, memory]
  · simp [serves.assembled.roaringSet_eq fits, found, termRoaringThreshold]

/-- In whatever order they come, the same additions are built to the same dictionary, and it is
their faithful inversion: within the capacity of the 32-bit tables, on disk as long as the segment
can be read, and with block metas in memory. -/
theorem build_inverts (hash : List UInt8 → Digest) (device : Device) (diskEnabled : Bool)
    (maxBytes : Nat) (additions permuted : List Addition) (permutation : additions.Perm permuted)
    (addressable : Addressable diskEnabled (PostingsBuilder.new.addAll additions).invert)
    (counted : ∀ a ∈ additions, a.positions.length < 2 ^ 32)
    (intact : diskEnabled = true → Readable ((PostingsBuilder.new.addAll additions).buildWithLimit
      hash device diskEnabled maxBytes).postingsSegment) :
    (PostingsBuilder.new.addAll permuted).buildWithLimit hash device diskEnabled maxBytes =
        (PostingsBuilder.new.addAll additions).buildWithLimit hash device diskEnabled maxBytes ∧
      FaithfulInversion (!diskEnabled) additions
        ((PostingsBuilder.new.addAll permuted).buildWithLimit hash device diskEnabled
          maxBytes) := by
  have same : (PostingsBuilder.new.addAll permuted).buildWithLimit hash device diskEnabled
      maxBytes = (PostingsBuilder.new.addAll additions).buildWithLimit hash device diskEnabled
      maxBytes := by
    simp only [buildWithLimit_eq, invert_perm permutation]
  refine ⟨same, ?_⟩
  rw [same]
  have serves := (Obtained.built additions device maxBytes addressable intact).serves
  have fits := serves.fits
  constructor
  case fields_distinct =>
    rw [serves.assembled.fieldNames]
    exact (PostingsBuilder.new.addAll additions).invert.sorted
  case fields =>
    intro field
    simp only [serves.assembled.fieldNames, SortedMap.mem_keys_iff, ← Option.isSome_iff_exists,
      invert_field, field_present]
    simp
  case terms_distinct =>
    intro field
    simp only [serves.assembled.terms_eq]
    cases (PostingsBuilder.new.addAll additions).invert.get? field with
    | none => simp
    | some terms => exact terms.sorted
  case terms =>
    intro field term
    exact (serves.mem_terms field term).trans (find_additions additions field term)
  case term =>
    intro field term member
    obtain ⟨⟨docIds, freqs⟩, found⟩ := (serves.mem_terms field term).mp member
    exact ⟨docIds, freqs, termInverted serves counted found⟩
  case others =>
    intro field term absent
    have missing : find (PostingsBuilder.new.addAll additions).invert field term = none := by
      rw [Option.eq_none_iff_forall_ne_some]
      intro v found
      exact absent ((serves.mem_terms field term).mpr ⟨v, found⟩)
    simp [serves.termPostings, serves.assembled.blockMetas_eq fits,
      serves.assembled.roaringSet_eq fits, missing]
  case skipped => exact buildWithLimit_skipped hash device diskEnabled maxBytes additions

/- Two documents out of order, one of them twice. -/
theorem build_inverts_three_additions :
    FaithfulInversion false
      [⟨"title", "rust", 3, [0, 4], by decide⟩, ⟨"title", "rust", 1, [2], by decide⟩,
        ⟨"title", "rust", 3, [], by decide⟩]
      ((PostingsBuilder.new.addAll [⟨"title", "rust", 3, [], by decide⟩,
        ⟨"title", "rust", 3, [0, 4], by decide⟩,
        ⟨"title", "rust", 1, [2], by decide⟩]).buildWithLimit id .reliable true
          p2IntegrityMaxBytes) := by
  have index : (PostingsBuilder.new.addAll [⟨"title", "rust", 3, [0, 4], by decide⟩,
      ⟨"title", "rust", 1, [2], by decide⟩, ⟨"title", "rust", 3, [], by decide⟩]).invert =
      oneTerm "title" "rust" ([1, 3], [1, 3]) := by
    decide +kernel
  have payload : (termPayload ([1, 3], [1, 3])).length = 5 := by
    decide +kernel
  refine (build_inverts id .reliable true p2IntegrityMaxBytes
    [⟨"title", "rust", 3, [0, 4], by decide⟩, ⟨"title", "rust", 1, [2], by decide⟩,
      ⟨"title", "rust", 3, [], by decide⟩] _ ?_ ?_ (by decide) ?_).2
  · exact @List.perm_append_comm _ [_, _] [_]
  · rw [index]
    exact oneTerm_addressable (by decide) (by omega)
  · intro _
    exact oneTerm_readable id index true _ (by rw [payload]; decide)

section Limits

variable {dictionary : TermDictionary Digest} {field term : String} {v : TermPostings}

theorem invert_singleton (a : Addition) (accepted : a.accepted = true) :
    (PostingsBuilder.new.addAll [a]).invert =
      oneTerm a.field a.term ([a.docId], [freqFromPositions a.positions]) := by
  have pushed := addAll_append_singleton .new [] a
  simp only [List.nil_append, accepted, if_true] at pushed
  rw [pushed]
  rfl

theorem wrapped_term_empty (assembled : Assembled hash false (oneTerm field term v) dictionary)
    (wraps : v.2.length = 2 ^ 32) : dictionary.termPostings field term = some ([], []) := by
  have disk := assembled.disk
  obtain ⟨fieldPostings, present, fieldOf⟩ := assembled.field field (.singleton term v)
    (by simp [oneTerm, SortedMap.get?_singleton])
  have number := fieldOf.indexed.number 0 term v (by decide) rfl
  have offsets : fieldPostings.offsets = [0, 0] := by
    have resident := (fieldOf.shape.resident rfl).1
    simp [filled, SortedMap.singleton, narrow, rowStarts, List.range_succ, rowStart, wraps]
      at resident
    exact resident
  simp [TermDictionary.termPostings, disk, TermDictionary.postings, present, FieldPostings.lookup,
    FieldPostings.termRange, number, offsets, slice]

/-- A faithful inversion lists the document of every accepted call. -/
theorem FaithfulInversion.listed {keepsMetas : Bool}
    (faithful : FaithfulInversion keepsMetas additions dictionary) {a : Addition}
    (member : a ∈ additions) (adds : a.Adds field term) :
    ∃ docIds freqs, TermInverted keepsMetas additions dictionary field term docIds freqs ∧
      a.docId ∈ docIds := by
  obtain ⟨docIds, freqs, inverted⟩ :=
    faithful.term field term ((faithful.terms field term).mpr ⟨a, member, adds⟩)
  exact ⟨docIds, freqs, inverted, (inverted.docs a.docId).mpr ⟨a, member, adds, rfl⟩⟩

theorem no_metas_on_disk (a : Addition) (accepted : a.accepted = true) :
    ¬ FaithfulInversion true [a] (diskBuild [a]) := by
  intro faithful
  obtain ⟨docIds, freqs, inverted, _⟩ :=
    faithful.listed List.mem_cons_self ⟨accepted, rfl, rfl⟩
  obtain ⟨blocks, kept, _⟩ := inverted.metas rfl
  have assembled := buildWithLimit_assembled id .reliable (PostingsBuilder.new.addAll [a]) true
    p2IntegrityMaxBytes
  have index := invert_singleton a accepted
  have postings : IsPostings [a.docId] [freqFromPositions a.positions] :=
    ⟨rfl, .singleton _, by simpa using a.docId_fits, by simpa using freqFromPositions_lt _⟩
  rw [index] at assembled
  have gone := assembled.blockMetas_eq
    (oneTerm_fits postings (List.cons_ne_nil _ _) (Nat.one_lt_two_pow (by decide))) a.field a.term
  exact Option.some_ne_none blocks (kept.symm.trans gone)

theorem wrapped_count_lost (a : Addition) (accepted : a.accepted = true)
    (wraps : a.positions.length = 2 ^ 32) :
    ¬ FaithfulInversion true [a] ((PostingsBuilder.new.addAll [a]).buildWithDiskFlag id .reliable
      false) := by
  intro faithful
  obtain ⟨docIds, freqs, inverted, listed⟩ :=
    faithful.listed List.mem_cons_self ⟨accepted, rfl, rfl⟩
  have nonempty : a.positions ≠ [] := by
    intro empty
    simp [empty] at wraps
  have count : freqFromPositions a.positions = 0 := by
    simp [freqFromPositions, nonempty, wraps]
  have index := invert_singleton a accepted
  rw [count] at index
  have postings : IsPostings [a.docId] [0] :=
    ⟨rfl, .singleton _, by simpa using a.docId_fits, by simp⟩
  have assembled := buildWithLimit_assembled id .reliable (PostingsBuilder.new.addAll [a]) false
    p2IntegrityMaxBytes
  rw [index] at assembled
  have serves : Serves id false _ _ := ⟨assembled,
    oneTerm_fits postings (List.cons_ne_nil _ _) (Nat.one_lt_two_pow (by decide)), by simp, by simp⟩
  have held := (serves.termPostings a.field a.term).trans find_oneTerm_self
  have same := inverted.found.symm.trans held
  simp only [Option.some.injEq, Prod.mk.injEq] at same
  have counts := inverted.counts
  have adds : a.Adds a.field a.term := ⟨accepted, rfl, rfl⟩
  rw [same.1, same.2] at counts
  simp [occurrences, adds, wraps] at counts

/-- With every document of `u32` in one term, the 32-bit offsets come back to zero. -/
theorem wrapped_field_lost {docIds freqs : List Nat} (postings : IsPostings docIds freqs)
    (positive : ∀ f ∈ freqs, 0 < f) (wraps : docIds.length = 2 ^ 32) :
    ¬ FaithfulInversion true (spell "title" "rust" (docIds, freqs) postings.docs_fit)
      ((PostingsBuilder.new.addAll (spell "title" "rust" (docIds, freqs)
        postings.docs_fit)).buildWithDiskFlag id .reliable false) := by
  intro faithful
  have nonempty : docIds ≠ [] := by
    intro empty
    simp [empty] at wraps
  have assembled := buildWithLimit_assembled id .reliable (PostingsBuilder.new.addAll
    (spell "title" "rust" (docIds, freqs) postings.docs_fit)) false p2IntegrityMaxBytes
  rw [invert_spell (by decide) (by decide) postings nonempty positive] at assembled
  have empty := wrapped_term_empty assembled (postings.aligned.symm.trans wraps)
  have calls : spell "title" "rust" (docIds, freqs) postings.docs_fit ≠ [] := by
    intro none_left
    have length := congrArg List.length none_left
    simp [spell, ← postings.aligned, wraps] at length
  obtain ⟨a, member⟩ := List.exists_mem_of_ne_nil _ calls
  have adds : a.Adds "title" "rust" :=
    ⟨accepted_spell (by decide) (by decide) member, mem_spell member⟩
  obtain ⟨_, _, inverted, listed⟩ := faithful.listed member adds
  have same := inverted.found.symm.trans empty
  simp only [Option.some.injEq, Prod.mk.injEq] at same
  simp [same.1] at listed

theorem once_isPostings {n : Nat} (fits : n ≤ 2 ^ 32) :
    IsPostings (List.range n) (List.replicate n 1) := by
  constructor
  case aligned => simp
  case increasing => exact List.isChain_iff_pairwise.mpr List.pairwise_lt_range
  case docs_fit => exact fun d member => (List.mem_range.mp member).trans_le fits
  case freqs_fit =>
    intro f member
    simp [List.eq_of_mem_replicate member]

def eachOnce (n : Nat) (fits : n ≤ 2 ^ 32) : List Addition :=
  spell "title" "rust" (List.range n, List.replicate n 1) (once_isPostings fits).docs_fit

theorem eachOnce_lost {n : Nat} (fits : n ≤ 2 ^ 32) (wraps : n = 2 ^ 32) :
    ¬ FaithfulInversion true (eachOnce n fits)
      ((PostingsBuilder.new.addAll (eachOnce n fits)).buildWithDiskFlag id .reliable false) :=
  wrapped_field_lost (once_isPostings fits)
    (fun _ member => Nat.lt_of_lt_of_eq Nat.one_pos (List.eq_of_mem_replicate member).symm)
    (List.length_range.trans wraps)

/-- Not every build is a faithful inversion with block metas: there are none on disk, and neither
the count of `2 ^ 32` positions nor the postings of `2 ^ 32` documents are kept. -/
theorem not_build_inverts :
    ¬ FaithfulInversion true [⟨"title", "rust", 0, [3], by decide⟩]
        (diskBuild [⟨"title", "rust", 0, [3], by decide⟩]) ∧
      ¬ FaithfulInversion true [⟨"title", "rust", 0, List.replicate (2 ^ 32) 0, by decide⟩]
        ((PostingsBuilder.new.addAll
          [⟨"title", "rust", 0, List.replicate (2 ^ 32) 0, by decide⟩]).buildWithDiskFlag id .reliable
            false) ∧
      ¬ FaithfulInversion true (eachOnce (2 ^ 32) le_rfl)
        ((PostingsBuilder.new.addAll (eachOnce (2 ^ 32) le_rfl)).buildWithDiskFlag id .reliable
          false) := by
  refine ⟨no_metas_on_disk _ (by decide), wrapped_count_lost _ ?_ List.length_replicate, ?_⟩
  · rfl
  · exact eachOnce_lost le_rfl rfl

end Limits

end Surch.Postings
