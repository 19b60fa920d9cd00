import Surch.Postings.Parity

/-! `merge_term_dictionaries` against building in one go. Every dictionary obtained from a list of
additions, by one build or by any tree of merges over ascending ranges of documents, serves the
same inverted index. -/
namespace Surch.Postings
open Surch.Lib Surch.Codec

variable {Digest : Type} {hash : List UInt8 → Digest} {diskEnabled : Bool}

/- A dictionary that can be read: assembled from an index within its capacity and, on disk, with
a readable segment. -/
structure Serves (hash : List UInt8 → Digest) (diskEnabled : Bool) (inverted : Inverted)
    (dictionary : TermDictionary Digest) : Prop where
  assembled : Assembled hash diskEnabled inverted dictionary
  fits : InvertedFits inverted
  payloads : diskEnabled = true → PayloadsFit inverted
  intact : diskEnabled = true → Readable dictionary.postingsSegment

namespace Serves

variable {inverted : Inverted} {dictionary : TermDictionary Digest} {field : String}

theorem field_none (serves : Serves hash diskEnabled inverted dictionary)
    (missing : inverted.get? field = none) : dictionary.fields.get? field = none := by
  rw [SortedMap.get?_eq_none_iff, serves.assembled.keys]
  exact (inverted.get?_eq_none_iff field).mp missing

theorem field_some (serves : Serves hash diskEnabled inverted dictionary)
    {terms : SortedMap String TermPostings} (at_field : inverted.get? field = some terms) :
    ∃ fieldPostings, dictionary.fields.get? field = some fieldPostings ∧
      fieldPostings.fst.keys = terms.keys := by
  obtain ⟨fieldPostings, present, fieldOf⟩ := serves.assembled.field field terms at_field
  exact ⟨fieldPostings, present, fieldOf.indexed.keys⟩

theorem mem_terms (serves : Serves hash diskEnabled inverted dictionary) (field term : String) :
    term ∈ dictionary.terms field ↔ ∃ v, find inverted field term = some v := by
  rw [serves.assembled.terms_eq, find]
  cases inverted.get? field with
  | none => simp
  | some terms => exact terms.mem_keys_iff term

/-- What a merge reads of a term from a dictionary is what the dictionary serves. -/
theorem sourcePostings (serves : Serves hash diskEnabled inverted dictionary)
    {fieldPostings : FieldPostings} (present : dictionary.fields.get? field = some fieldPostings)
    {term : String} {v : TermPostings} (found : find inverted field term = some v) :
    ∃ termIdx, fieldPostings.fst.get? term = some termIdx ∧
      Postings.sourcePostings dictionary fieldPostings termIdx = some v := by
  obtain ⟨terms, _, i, _, here, fieldOf, field_fits, number, value⟩ :=
    serves.assembled.locate serves.fits found
  rw [present] at here
  cases here
  refine ⟨i, number, ?_⟩
  rw [Postings.sourcePostings, TermDictionary.diskBacked, serves.assembled.disk]
  cases diskEnabled with
  | true =>
    have read := serves.assembled.decodeFromSegment_disk serves.fits (serves.payloads rfl)
      (serves.intact rfl) field term
    rw [found, TermDictionary.decodeFromSegment, present, Option.bind_eq_bind, Option.bind_some,
      number, Option.bind_eq_bind, Option.bind_some] at read
    simp only [read, if_true, Option.getD_some]
  | false =>
    have read := lookup_memory field_fits fieldOf.shape number value
    rw [FieldPostings.lookup, FieldPostings.termRange, number] at read
    simpa [Option.bind_assoc] using read

end Serves

def Served (hash : List UInt8 → Digest) (inverted : Inverted) (dictionary : TermDictionary Digest) :
    Prop :=
  Serves hash dictionary.diskEnabled inverted dictionary

theorem Serves.served {inverted : Inverted} {dictionary : TermDictionary Digest}
    (serves : Serves hash diskEnabled inverted dictionary) : Served hash inverted dictionary := by
  rw [Served, serves.assembled.disk]
  exact serves

section Sources

variable {sources : List (Inverted × TermDictionary Digest)}

theorem participants_keys (each : ∀ s ∈ sources, Served hash s.1 s.2) (field : String) :
    ((participants (sources.map Prod.snd) field).flatMap fun source => source.2.fst.keys) =
      ((sources.map Prod.fst).filterMap fun source => source.get? field).flatMap
        SortedMap.keys := by
  induction sources with
  | nil => rfl
  | cons s sources ih =>
    have serves := each s List.mem_cons_self
    have rest := ih fun other member => each other (List.mem_cons_of_mem _ member)
    rw [participants] at rest
    rw [participants, List.map_cons, List.map_cons, List.filterMap_cons, List.filterMap_cons]
    cases at_field : s.1.get? field with
    | none =>
      rw [serves.field_none at_field]
      exact rest
    | some terms =>
      obtain ⟨fieldPostings, present, keys⟩ := serves.field_some at_field
      rw [present]
      simp only [Option.map_some, List.flatMap_cons, keys, rest]

theorem contributions_eq (each : ∀ s ∈ sources, Served hash s.1 s.2)
    (field term : String) :
    ((participants (sources.map Prod.snd) field).filterMap fun source =>
        (source.2.fst.get? term).map fun termIdx => (source, termIdx)).mapM
          (fun (source, termIdx) => sourcePostings source.1 source.2 termIdx) =
      some (((sources.map Prod.fst).filterMap fun source => source.get? field).filterMap
        fun terms => terms.get? term) := by
  induction sources with
  | nil => rfl
  | cons s sources ih =>
    have serves := each s List.mem_cons_self
    have rest := ih fun other member => each other (List.mem_cons_of_mem _ member)
    rw [participants] at rest
    rw [participants, List.map_cons, List.map_cons, List.filterMap_cons, List.filterMap_cons]
    cases at_field : s.1.get? field with
    | none =>
      rw [serves.field_none at_field]
      exact rest
    | some terms =>
      obtain ⟨fieldPostings, present, keys⟩ := serves.field_some at_field
      simp only [present, Option.map_some]
      rw [List.filterMap_cons, List.filterMap_cons]
      cases at_term : terms.get? term with
      | none =>
        have gone : fieldPostings.fst.get? term = none := by
          rw [SortedMap.get?_eq_none_iff, keys]
          exact (terms.get?_eq_none_iff term).mp at_term
        simp only [gone, Option.map_none]
        exact rest
      | some v =>
        have found : find s.1 field term = some v := by
          rw [find, at_field, Option.bind_some, at_term]
        obtain ⟨termIdx, number, read⟩ := serves.sourcePostings present found
        simp only [number, Option.map_some]
        rw [List.mapM_cons, read, rest]
        rfl

theorem mergedFields_eq (each : ∀ s ∈ sources, Served hash s.1 s.2) :
    mergedFields (sources.map Prod.snd) = some (mergeInverted (sources.map Prod.fst)) := by
  have names : ((sources.map Prod.snd).flatMap fun source => source.fields.keys) =
      (sources.map Prod.fst).flatMap SortedMap.keys := by
    rw [List.flatMap_map, List.flatMap_map]
    apply List.flatMap_congr
    intro s member
    exact (each s member).assembled.keys
  rw [mergedFields, SortedMap.sequence_eq_some_iff]
  apply SortedMap.ext_get?
  intro field
  rw [SortedMap.get?_map, mergeInverted, SortedMap.get?_ofKeys, SortedMap.get?_ofKeys, names]
  split
  · rw [Option.map_some, Option.some.injEq, SortedMap.sequence_eq_some_iff]
    apply SortedMap.ext_get?
    intro term
    rw [SortedMap.get?_map, SortedMap.get?_ofKeys, SortedMap.get?_ofKeys, participants_keys each]
    split
    · rw [mergedTerm, contributions_eq each]
      rfl
    · rfl
  · rfl

end Sources

/- The postings a dictionary gives for a term: from its flat channels, or from its segment. -/
def TermDictionary.termPostings (dictionary : TermDictionary Digest) (field term : String) :
    Option TermPostings :=
  if dictionary.diskEnabled then dictionary.decodeFromSegment field term
  else dictionary.postings field term

structure SameDictionary (first second : TermDictionary Digest) : Prop where
  fieldNames : first.fieldNames = second.fieldNames
  terms : ∀ field, first.terms field = second.terms field
  termPostings : ∀ field term, first.termPostings field term = second.termPostings field term
  blockMetas : ∀ field term, first.blockMetas field term = second.blockMetas field term
  roaringSet : ∀ field term, first.roaringSet field term = second.roaringSet field term

theorem Serves.termPostings {inverted : Inverted} {dictionary : TermDictionary Digest}
    (serves : Serves hash diskEnabled inverted dictionary) (field term : String) :
    dictionary.termPostings field term = find inverted field term := by
  have disk := serves.assembled.disk
  cases diskEnabled with
  | true =>
    rw [TermDictionary.termPostings, if_pos disk]
    exact serves.assembled.decodeFromSegment_disk serves.fits (serves.payloads rfl)
      (serves.intact rfl) field term
  | false =>
    rw [TermDictionary.termPostings, if_neg (by rw [disk]; decide)]
    exact serves.assembled.postings_memory serves.fits field term

theorem Serves.same {inverted : Inverted} {first second : TermDictionary Digest}
    (left : Serves hash diskEnabled inverted first)
    (right : Serves hash diskEnabled inverted second) : SameDictionary first second where
  fieldNames := left.assembled.fieldNames.trans right.assembled.fieldNames.symm
  terms field := (left.assembled.terms_eq field).trans (right.assembled.terms_eq field).symm
  termPostings field term := (left.termPostings field term).trans (right.termPostings field term).symm
  blockMetas field term := (left.assembled.blockMetas_eq left.fits field term).trans
    (right.assembled.blockMetas_eq right.fits field term).symm
  roaringSet field term := (left.assembled.roaringSet_eq left.fits field term).trans
    (right.assembled.roaringSet_eq right.fits field term).symm

/- The dictionaries obtained from a list of additions: built in one go, or merged from
dictionaries obtained from consecutive parts of it over ascending ranges of documents. -/
inductive Obtained (hash : List UInt8 → Digest) (diskEnabled : Bool) :
    List Addition → TermDictionary Digest → Prop
  | built (additions : List Addition) (device : Device) (maxBytes : Nat)
    (addressable : Addressable diskEnabled (PostingsBuilder.new.addAll additions).invert)
    (intact : diskEnabled = true → Readable ((PostingsBuilder.new.addAll additions).buildWithLimit
      hash device diskEnabled maxBytes).postingsSegment) :
    Obtained hash diskEnabled additions ((PostingsBuilder.new.addAll additions).buildWithLimit hash
      device diskEnabled maxBytes)
  | merged (sources : List (List Addition × TermDictionary Digest)) (device : Device)
    (maxBytes : Nat) (merged : TermDictionary Digest)
    (each : ∀ s ∈ sources, Obtained hash diskEnabled s.1 s.2)
    (ascending : Ascending (sources.map Prod.fst))
    (addressable : Addressable diskEnabled
      (PostingsBuilder.new.addAll (sources.map Prod.fst).flatten).invert)
    (produced : mergeTermDictionaries hash device (sources.map Prod.snd) diskEnabled maxBytes =
      some merged)
    (intact : diskEnabled = true → Readable merged.postingsSegment) :
    Obtained hash diskEnabled (sources.map Prod.fst).flatten merged

theorem mergedFields_ascending (sources : List (List Addition × TermDictionary Digest))
    (each : ∀ s ∈ sources, Served hash (PostingsBuilder.new.addAll s.1).invert s.2)
    (ascending : Ascending (sources.map Prod.fst)) :
    mergedFields (sources.map Prod.snd) =
      some (PostingsBuilder.new.addAll (sources.map Prod.fst).flatten).invert := by
  have indexed : ∀ s ∈ sources.map fun s => ((PostingsBuilder.new.addAll s.1).invert, s.2),
      Served hash s.1 s.2 := by
    intro s member
    obtain ⟨source, inside, rfl⟩ := List.mem_map.mp member
    exact each source inside
  have read := mergedFields_eq indexed
  rw [List.map_map, List.map_map] at read
  have groups := mergeInverted_invert (sources.map Prod.fst) ascending
  rw [List.map_map] at groups
  rw [← groups]
  exact read

/-- Merging dictionaries over ascending ranges assembles the index of all their additions. -/
theorem merge_serving (device : Device) (maxBytes : Nat)
    (sources : List (List Addition × TermDictionary Digest))
    (each : ∀ s ∈ sources, Served hash (PostingsBuilder.new.addAll s.1).invert s.2)
    (ascending : Ascending (sources.map Prod.fst)) :
    ∃ merged, mergeTermDictionaries hash device (sources.map Prod.snd) diskEnabled maxBytes =
        some merged ∧
      Assembled hash diskEnabled
        (PostingsBuilder.new.addAll (sources.map Prod.fst).flatten).invert merged :=
  merge_assembled hash device (sources.map Prod.snd) diskEnabled maxBytes
    (mergedFields_ascending sources each ascending)

theorem Obtained.serves {additions : List Addition} {dictionary : TermDictionary Digest}
    (obtained : Obtained hash diskEnabled additions dictionary) :
    Serves hash diskEnabled (PostingsBuilder.new.addAll additions).invert dictionary := by
  induction obtained with
  | built additions device maxBytes addressable intact =>
    exact ⟨buildWithLimit_assembled hash device _ _ _, addressable.fits, addressable.payload, intact⟩
  | merged sources device maxBytes merged each ascending addressable produced intact ih =>
    obtain ⟨outcome, again, assembled⟩ := merge_serving device maxBytes sources
      (fun s member => (ih s member).served) ascending
    rw [produced] at again
    cases again
    exact ⟨assembled, addressable.fits, addressable.payload, intact⟩

/-- Merging dictionaries obtained from ascending groups succeeds, and shows what any other way of
obtaining a dictionary from the same additions shows: one build of them all, one merge of all
their sources, or any tree of merges. -/
theorem merging_commutes_with_building (device : Device) (maxBytes : Nat)
    (sources : List (List Addition × TermDictionary Digest))
    (each : ∀ s ∈ sources, Obtained hash diskEnabled s.1 s.2)
    (ascending : Ascending (sources.map Prod.fst))
    (addressable : Addressable diskEnabled
      (PostingsBuilder.new.addAll (sources.map Prod.fst).flatten).invert) :
    ∃ merged, mergeTermDictionaries hash device (sources.map Prod.snd) diskEnabled maxBytes =
        some merged ∧
      ((diskEnabled = true → Readable merged.postingsSegment) →
        ∀ other, Obtained hash diskEnabled (sources.map Prod.fst).flatten other →
          SameDictionary merged other) := by
  obtain ⟨merged, produced, assembled⟩ := merge_serving device maxBytes sources
    (fun s member => (each s member).serves.served) ascending
  refine ⟨merged, produced, ?_⟩
  intro intact other obtained
  have serves : Serves hash diskEnabled _ merged :=
    ⟨assembled, addressable.fits, addressable.payload, intact⟩
  exact serves.same obtained.serves

theorem oneTerm_obtained {additions : List Addition} {field term : String} {v : TermPostings}
    (index : (PostingsBuilder.new.addAll additions).invert = oneTerm field term v)
    (few : v.1.length < 2 ^ 32) (small : (termPayload v).length < 2 ^ 32) (maxBytes : Nat) :
    Obtained hash true additions
      ((PostingsBuilder.new.addAll additions).buildWithLimit hash .reliable true maxBytes) := by
  refine .built additions .reliable maxBytes ?_ fun _ => oneTerm_readable hash index true maxBytes ?_
  · rw [index]
    exact oneTerm_addressable few small
  · exact small.trans (by decide)

section Checks

/-- A dictionary stays on the file it was given. -/
theorem assemble_device (hash : List UInt8 → Digest) (device : Device) (diskEnabled : Bool)
    (maxBytes : Nat) (inverted : Inverted) (numbering : Nat → Nat) {segment : PostingsSegment}
    (present : (assemble hash device diskEnabled maxBytes
      (inverted.map (fieldInput diskEnabled numbering))).postingsSegment = some segment) :
    segment.device = device := by
  obtain ⟨-, continues, -⟩ := (inverted.map (fieldInput diskEnabled numbering)).mapAccum_rule
    (fun state fieldOrdinal _ field =>
      finishField hash diskEnabled field.1 field.2 fieldOrdinal state)
    { postingsSegment := PostingsSegment.tryNew device
      p2Integrity := .withMaxBytes maxBytes
      postingsSkippedTerms := 0 }
    (fun state _ => Continues (PostingsSegment.tryNew device) state.postingsSegment)
    (.refl _)
    (by
      intro state done name input member earlier
      obtain ⟨⟨_, terms⟩, _, given⟩ := List.mem_map.mp member
      cases given
      dsimp only
      cases finished : finishField hash diskEnabled (fieldInput diskEnabled numbering terms).1
          (fieldInput diskEnabled numbering terms).2 done.length state with
      | mk after field => exact earlier.trans (finishField_spec hash finished).2.2.1)
  obtain ⟨first, created, reached⟩ := continues segment present
  rw [reached.device]
  unfold PostingsSegment.tryNew at created
  split at created
  · cases created
    rfl
  · cases created

theorem readable_of_isSome (hash : List UInt8 → Digest) {device : Device}
    (reads : ∀ offset length, device.reads offset length = true) {diskEnabled : Bool} {maxBytes : Nat}
    {inverted : Inverted} {numbering : Nat → Nat}
    (present : (assemble hash device diskEnabled maxBytes
      (inverted.map (fieldInput diskEnabled numbering))).postingsSegment.isSome = true) :
    Readable (assemble hash device diskEnabled maxBytes
      (inverted.map (fieldInput diskEnabled numbering))).postingsSegment := by
  obtain ⟨segment, here⟩ := Option.isSome_iff_exists.mp present
  refine ⟨segment, here, ?_⟩
  rw [assemble_device hash device diskEnabled maxBytes inverted numbering here]
  exact reads

def addressable (diskEnabled : Bool) (inverted : Inverted) : Bool :=
  inverted.entries.all fun field =>
    decide ((field.2.entries.map fun entry => entry.2.1.length).sum < 2 ^ 32) &&
      (!diskEnabled || field.2.entries.all fun entry => decide ((termPayload entry.2).length < 2 ^ 32))

theorem addressable_sound {diskEnabled : Bool} {inverted : Inverted}
    (checked : addressable diskEnabled inverted = true) : Addressable diskEnabled inverted := by
  have each : ∀ name terms, inverted.get? name = some terms →
      (terms.entries.map fun entry => entry.2.1.length).sum < 2 ^ 32 ∧
        (diskEnabled = true → ∀ entry ∈ terms.entries, (termPayload entry.2).length < 2 ^ 32) := by
    intro name terms found
    have here := List.all_eq_true.mp checked _ ((inverted.get?_eq_some_iff name terms).mp found)
    rw [Bool.and_eq_true, decide_eq_true_eq] at here
    refine ⟨here.1, fun onDisk entry member => ?_⟩
    have payloads := here.2
    rw [onDisk] at payloads
    exact of_decide_eq_true (List.all_eq_true.mp payloads entry member)
  refine ⟨fun name terms found => (each name terms found).1, fun onDisk name term v found => ?_⟩
  obtain ⟨terms, at_field, at_term⟩ := Option.bind_eq_some_iff.mp found
  exact (each name terms at_field).2 onDisk _ ((terms.get?_eq_some_iff term v).mp at_term)

end Checks

/- A build on a device that never fails, with the identity in the place of the hash. -/
def diskBuild (additions : List Addition) : TermDictionary (List UInt8) :=
  (PostingsBuilder.new.addAll additions).buildWithDiskFlag id .reliable true

theorem diskBuild_obtained {additions : List Addition}
    (small : addressable true (PostingsBuilder.new.addAll additions).invert = true)
    (present : (diskBuild additions).postingsSegment.isSome = true) :
    Obtained id true additions (diskBuild additions) := by
  refine .built additions .reliable p2IntegrityMaxBytes (addressable_sound small) fun _ => ?_
  rw [diskBuild, PostingsBuilder.buildWithDiskFlag, buildWithLimit_eq] at present
  rw [buildWithLimit_eq]
  exact readable_of_isSome id (fun _ _ => rfl) present

theorem diskMerge_obtained {groups : List (List Addition)} {merged : TermDictionary (List UInt8)}
    (each : ∀ additions ∈ groups, Obtained id true additions (diskBuild additions))
    (ascending : Ascending groups)
    (small : addressable true (PostingsBuilder.new.addAll groups.flatten).invert = true)
    (produced : mergeTermDictionaries id .reliable (groups.map diskBuild) true p2IntegrityMaxBytes =
      some merged)
    (present : merged.postingsSegment.isSome = true) : Obtained id true groups.flatten merged := by
  let sources := groups.map fun additions => (additions, diskBuild additions)
  have firsts : sources.map Prod.fst = groups := by simp [sources, Function.comp_def]
  have seconds : sources.map Prod.snd = groups.map diskBuild := by simp [sources]
  have obtained : ∀ s ∈ sources, Obtained id true s.1 s.2 := by
    intro s member
    obtain ⟨additions, inside, rfl⟩ := List.mem_map.mp member
    exact each additions inside
  rw [← firsts] at ascending small ⊢
  rw [← seconds] at produced
  refine .merged sources .reliable p2IntegrityMaxBytes merged obtained ascending
    (addressable_sound small) produced fun _ => ?_
  have read := mergedFields_ascending sources (fun s member => (obtained s member).serves.served) ascending
  rw [mergeTermDictionaries_eq _ _ _ _ _ read] at produced
  cases produced
  exact readable_of_isSome id (fun _ _ => rfl) present

def firstGroup : List Addition := [⟨"title", "rust", 0, [3], zero_fits⟩]

theorem five_fits : 5 < 2 ^ 32 := by decide

def secondGroup : List Addition := [⟨"title", "rust", 5, [1, 2], five_fits⟩]

/- One term over two groups, on disk. -/
theorem merging_commutes_for_two_groups :
    ∃ merged, mergeTermDictionaries id .reliable [diskBuild firstGroup, diskBuild secondGroup] true
        p2IntegrityMaxBytes = some merged ∧
      SameDictionary merged (diskBuild (firstGroup ++ secondGroup)) := by
  have first : Obtained id true firstGroup (diskBuild firstGroup) :=
    diskBuild_obtained (by decide +kernel) (by decide +kernel)
  have second : Obtained id true secondGroup (diskBuild secondGroup) :=
    diskBuild_obtained (by decide +kernel) (by decide +kernel)
  have whole : Obtained id true (firstGroup ++ secondGroup) (diskBuild (firstGroup ++ secondGroup)) :=
    diskBuild_obtained (by decide +kernel) (by decide +kernel)
  have small : addressable true (PostingsBuilder.new.addAll (firstGroup ++ secondGroup)).invert = true := by
    decide +kernel
  have ascending : Ascending [firstGroup, secondGroup] := by
    simp [Ascending, firstGroup, secondGroup]
  obtain ⟨merged, produced, same⟩ := merging_commutes_with_building .reliable p2IntegrityMaxBytes
    [(firstGroup, diskBuild firstGroup), (secondGroup, diskBuild secondGroup)]
    (List.forall_mem_cons.mpr ⟨first, List.forall_mem_singleton.mpr second⟩) ascending
    (addressable_sound small)
  have kept : (mergeTermDictionaries id .reliable [diskBuild firstGroup, diskBuild secondGroup] true
      p2IntegrityMaxBytes).map (fun merged => merged.postingsSegment.isSome) = some true := by
    decide +kernel
  obtain ⟨merged', produced', present⟩ := Option.map_eq_some_iff.mp kept
  have obtained := @diskMerge_obtained [firstGroup, secondGroup] merged'
    (List.forall_mem_cons.mpr ⟨first, List.forall_mem_singleton.mpr second⟩) ascending small produced'
    present
  obtain rfl : merged = merged' := Option.some.inj (produced.symm.trans produced')
  exact ⟨merged, produced, same (fun _ => obtained.serves.intact rfl) _ whole⟩

section Lost

variable {field term : String} {v : TermPostings} {dictionary : TermDictionary Digest}

theorem mergedFields_lost (assembled : Assembled hash true (oneTerm field term v) dictionary)
    {fieldPostings : FieldPostings} {i : Nat}
    (at_field : dictionary.fields.get? field = some fieldPostings)
    (number : fieldPostings.fst.get? term = some i)
    (lost : dictionary.decodeFromSegment field term = none) :
    mergedFields [dictionary] = some (oneTerm field term ([], [])) := by
  have contribution : sourcePostings dictionary fieldPostings i = some ([], []) := by
    rw [TermDictionary.decodeFromSegment, at_field, Option.bind_eq_bind, Option.bind_some, number,
      Option.bind_eq_bind, Option.bind_some] at lost
    rw [sourcePostings, TermDictionary.diskBacked, assembled.disk]
    simp only [lost, if_true, Option.getD_none]
  obtain ⟨_, here, fieldOf⟩ := assembled.field field (.singleton term v) (by simp [oneTerm])
  rw [at_field] at here
  cases here
  have names : dictionary.fields.keys = [field] := assembled.keys
  have terms : fieldPostings.fst.keys = [term] := fieldOf.indexed.keys
  have alone : participants [dictionary] field = [(dictionary, fieldPostings)] := by
    simp [participants, at_field]
  have merged : mergedTerm [(dictionary, fieldPostings)] term = some ([], []) := by
    simp [mergedTerm, number, contribution, concatPostings]
  rw [mergedFields, SortedMap.sequence_eq_some_iff]
  apply SortedMap.ext_get?
  intro name
  rw [SortedMap.get?_map, oneTerm, SortedMap.get?_singleton, SortedMap.get?_ofKeys,
    List.flatMap_singleton, names]
  by_cases same : name = field
  · rw [if_pos (List.mem_singleton.mpr same), if_pos same, Option.map_some, Option.some.injEq, same,
      alone]
    dsimp only
    rw [List.flatMap_singleton, terms, SortedMap.sequence_eq_some_iff]
    apply SortedMap.ext_get?
    intro word
    rw [SortedMap.get?_map, SortedMap.get?_singleton, SortedMap.get?_ofKeys]
    by_cases same_term : word = term
    · rw [if_pos (List.mem_singleton.mpr same_term), if_pos same_term, same_term, merged]
      rfl
    · rw [if_neg (by simpa using same_term), if_neg same_term]
      rfl
  · rw [if_neg (by simpa using same), if_neg same]
    rfl

theorem roaringSet_empty (assembled : Assembled hash diskEnabled (oneTerm field term ([], [])) dictionary) :
    dictionary.roaringSet field term = none := by
  obtain ⟨fieldPostings, at_field, fieldOf⟩ :=
    assembled.field field (.singleton term ([], [])) (by simp [oneTerm])
  have empty : fieldPostings.roaring = [] := by
    rw [fieldOf.shape.roaring]
    rfl
  rw [TermDictionary.roaringSet, at_field, Option.bind_eq_bind, Option.bind_some]
  cases fieldPostings.fst.get? term with
  | none => rfl
  | some i =>
    rw [Option.bind_eq_bind, Option.bind_some, FieldPostings.lookupRoaring, empty]
    rfl

end Lost

/-- Merging the single dictionary of a term whose payload passes `2 ^ 32` bytes loses the term's
postings, and with them its set. -/
theorem merging_loses_wide_payload :
    ¬ ∀ groups : List (List Addition), Ascending groups →
      (∀ group ∈ groups, Readable (diskBuild group).postingsSegment) →
      Readable (diskBuild groups.flatten).postingsSegment →
      ∀ merged, mergeTermDictionaries id .reliable (groups.map diskBuild) true p2IntegrityMaxBytes =
        some merged → Readable merged.postingsSegment →
      ∀ field term, (merged.roaringSet field term).isSome =
        ((diskBuild groups.flatten).roaringSet field term).isSome := by
  intro commutes
  obtain ⟨n, overflows⟩ := exists_overflows
  have index := overflows.index "title" "rust" (by decide) (by decide)
  have close := overflows.close
  have bounds := overflows.bounds
  have intact : Readable (diskBuild (spell "title" "rust" (wideDocs n, wideFreqs n)
      overflows.postings.docs_fit)).postingsSegment :=
    oneTerm_readable id index true p2IntegrityMaxBytes (by rw [PostingsSegment.fileSizeLimit]; omega)
  have assembled := buildWithLimit_assembled id .reliable (PostingsBuilder.new.addAll (spell "title"
    "rust" (wideDocs n, wideFreqs n) overflows.postings.docs_fit)) true p2IntegrityMaxBytes
  rw [index] at assembled
  have lost := overflows.decodeFromSegment_none assembled intact
  obtain ⟨_, fieldPostings, i, _, at_field, _, _, number, _⟩ :=
    assembled.locate overflows.fits find_oneTerm_self
  have read := mergedFields_lost assembled at_field number lost
  have produced := mergeTermDictionaries_eq id .reliable _ true p2IntegrityMaxBytes read
  have readable : Readable (assemble id .reliable true p2IntegrityMaxBytes
      ((oneTerm "title" "rust" ([], [])).map (fieldInput true (· % 2 ^ 32)))).postingsSegment :=
    assemble_readable id true p2IntegrityMaxBytes _ (by decide +kernel)
  have empty := roaringSet_empty (assemble_assembled id .reliable true p2IntegrityMaxBytes
    (oneTerm "title" "rust" ([], [])) (· % 2 ^ 32) fun i small => Nat.mod_eq_of_lt small)
  have kept := assembled.roaringSet_eq overflows.fits "title" "rust"
  have frequent : (wideDocs n).length > termRoaringThreshold := by
    rw [wideDocs, List.length_range, termRoaringThreshold]
    simp only [forBlockSize]
    omega
  rw [find_oneTerm_self, Option.bind_some, if_pos frequent] at kept
  have same := commutes [spell "title" "rust" (wideDocs n, wideFreqs n) overflows.postings.docs_fit]
    (by simp [Ascending]) (by simpa using intact) (by simpa using intact) _ produced readable
    "title" "rust"
  rw [List.flatten_singleton, diskBuild, PostingsBuilder.buildWithDiskFlag, empty, kept] at same
  cases same

end Surch.Postings
