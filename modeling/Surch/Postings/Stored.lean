import Surch.Postings.Ceiling

/-! What a dictionary stores of the postings it was assembled from: resident channels in memory
mode, and on disk a payload together with a directory that is resident or spilled. -/
namespace Surch.Postings
open Surch.Lib Surch.Codec

variable {Digest : Type}

/- The digests of a region stand in the table from the region's start on. -/
structure Published (hash : List UInt8 → Digest) (digests : List Digest) (kind : P2RegionKind)
    (dataBase : Nat) (data : List UInt8) (digested : P2DigestedRegion Digest) : Prop where
  produced : ∃ fieldOrdinal digestStart before after,
    p2DigestRegion hash kind fieldOrdinal dataBase data digestStart = some digested ∧
      digests = before ++ digested.digests ++ after ∧ before.length = digestStart

theorem Published.extend {hash : List UInt8 → Digest} {digests : List Digest} {kind : P2RegionKind}
    {dataBase : Nat} {data : List UInt8} {digested : P2DigestedRegion Digest}
    (published : Published hash digests kind dataBase data digested) (more : List Digest) :
    Published hash (digests ++ more) kind dataBase data digested := by
  obtain ⟨fieldOrdinal, digestStart, before, after, produced, table, start⟩ := published.produced
  refine ⟨fieldOrdinal, digestStart, before, after ++ more, produced, ?_, start⟩
  rw [table, List.append_assoc]

theorem Published.attested {hash : List UInt8 → Digest} {integrity : P2IntegrityTable Digest}
    {kind : P2RegionKind} {dataBase : Nat} {data : List UInt8} {digested : P2DigestedRegion Digest}
    (published : Published hash integrity.digests kind dataBase data digested)
    (small : integrity.digests.length < 2 ^ 32) :
    Attested hash integrity digested.region data ∧ digested.region.dataBase = dataBase := by
  obtain ⟨fieldOrdinal, digestStart, before, after, produced, table, start⟩ := published.produced
  refine ⟨attested_of_digestRegion produced table start small, ?_⟩
  unfold p2DigestRegion at produced
  split at produced <;> cases produced
  rfl

/- The directory of a field: resident tables, or records in the segment with their digests. -/
inductive Located (hash : List UInt8 → Digest) (segment : PostingsSegment) (digests : List Digest)
    (channels : TermDirectoryChannels) (field : FieldPostings) : Prop
  | resident (directory : field.termEntriesDirectory = none) (integrity : field.p2Integrity = none)
    (descriptors : field.segmentDescriptors = channels.segmentDescriptors)
    (offsets : field.offsets = channels.offsets)
    (blocks : field.blockDirectory = channels.blockDirectory)
    (blockOffsets : field.blockDirOffsets = channels.blockDirOffsets)
  | spilled (blockDirBase entriesBase : Nat) (entries : List TermEntry)
    (directoryIntegrity entriesIntegrity : P2DigestedRegion Digest)
    (directory : field.termEntriesDirectory =
      some (entriesBase, channels.segmentDescriptors.length))
    (few : channels.segmentDescriptors.length < 2 ^ 32)
    (records : (List.range channels.segmentDescriptors.length).mapM
      (channels.termEntry blockDirBase) = some entries)
    (directory_held : segment.Holds blockDirBase
      (channels.blockDirectory.flatMap encodeBlockDirEntry))
    (entries_held : segment.Holds entriesBase (entries.flatMap encodeTermEntry))
    (integrity : field.p2Integrity = some
      { entries := entriesIntegrity.region, directory := directoryIntegrity.region })
    (directory_published : Published hash digests .directory blockDirBase
      (channels.blockDirectory.flatMap encodeBlockDirEntry) directoryIntegrity)
    (entries_published : Published hash digests .entries entriesBase
      (entries.flatMap encodeTermEntry) entriesIntegrity)

theorem Located.extend {hash : List UInt8 → Digest} {segment next : PostingsSegment}
    {digests : List Digest} {channels : TermDirectoryChannels} {field : FieldPostings}
    (located : Located hash segment digests channels field) (reached : segment.Reaches next)
    (more : List Digest) : Located hash next (digests ++ more) channels field := by
  cases located with
  | resident directory integrity descriptors offsets blocks blockOffsets =>
    exact .resident directory integrity descriptors offsets blocks blockOffsets
  | spilled blockDirBase entriesBase entries directoryIntegrity entriesIntegrity directory few
      records directory_held entries_held integrity directory_published entries_published =>
    exact .spilled blockDirBase entriesBase entries directoryIntegrity entriesIntegrity directory few
      records (directory_held.reaches reached) (entries_held.reaches reached) integrity
      (directory_published.extend more) (entries_published.extend more)

/- A field on disk: its payload is in the segment and its directory leads there. -/
def FieldStored (hash : List UInt8 → Digest) (segment : PostingsSegment) (digests : List Digest)
    (terms : List TermPostings) (field : FieldPostings) : Prop :=
  (filled true terms).fieldPayload ≠ [] →
    ∃ base, segment.Holds base (filled true terms).fieldPayload ∧
      Located hash segment digests ((filled true terms).directoryChannels (some base)) field

theorem FieldStored.extend {hash : List UInt8 → Digest} {segment next : PostingsSegment}
    {digests : List Digest} {terms : List TermPostings} {field : FieldPostings}
    (stored : FieldStored hash segment digests terms field) (reached : segment.Reaches next)
    (more : List Digest) : FieldStored hash next (digests ++ more) terms field := by
  intro nonempty
  obtain ⟨base, held, located⟩ := stored nonempty
  exact ⟨base, held.reaches reached, located.extend reached more⟩

/- The channels that are never spilled, and the tables a build in memory leaves resident. -/
structure FieldShape (diskEnabled : Bool) (terms : List TermPostings) (field : FieldPostings) :
    Prop where
  docIdsFlat : field.docIdsFlat = (filled diskEnabled terms).docIdsFlat
  freqsFlat : field.freqsFlat = (filled diskEnabled terms).freqsFlat
  blockMetasFlat : field.blockMetasFlat = (filled diskEnabled terms).blockMetasFlat
  roaring : field.roaring = (filled diskEnabled terms).roaring
  resident : diskEnabled = false → field.offsets = (filled diskEnabled terms).offsets ∧
    field.blockOffsets = (filled diskEnabled terms).blockOffsets
  blockOffsets : diskEnabled = true → field.blockOffsets = []

theorem flushPayload_continues (segment : Option PostingsSegment) (payload : List UInt8) :
    Continues segment (flushPayload segment payload).2 := by
  unfold flushPayload
  split
  · exact .refl _
  split
  · intro next absent
    cases absent
  · rename_i first
    split
    · rename_i base second appended
      have second_eq : second = (first.append payload).2 := by rw [appended]
      rw [second_eq]
      exact .append (.append .refl payload)
    · intro next absent
      cases absent

theorem flushPayload_some {segment : Option PostingsSegment} {payload : List UInt8}
    {last : PostingsSegment} (nonempty : payload ≠ [])
    (present : (flushPayload segment payload).2 = some last) :
    ∃ base, (flushPayload segment payload).1 = some base ∧ last.Holds base payload := by
  unfold flushPayload at present ⊢
  rw [if_neg nonempty] at present ⊢
  cases segment with
  | none => cases present
  | some first =>
    dsimp only at present ⊢
    cases appended : first.append payload with
    | mk outcome second =>
      rw [appended] at present
      cases outcome with
      | none => cases present
      | some base =>
        cases present
        have held := (PostingsSegment.append_holds (congrArg Prod.fst appended)).2.1
        rw [appended] at held
        exact ⟨base, rfl, held⟩

/-- Finishing a field: its shape, what it stores when the segment survives, and that it only adds
to the segment and to the digests. -/
theorem finishField_spec (hash : List UInt8 → Digest) {diskEnabled : Bool} {fst : Fst}
    {terms : List TermPostings} {fieldOrdinal : Nat} {before after : BuildState Digest}
    {field : FieldPostings}
    (finished : finishField hash diskEnabled fst (filled diskEnabled terms) fieldOrdinal before =
      (after, field)) :
    field.fst = fst ∧ FieldShape diskEnabled terms field ∧
      Continues before.postingsSegment after.postingsSegment ∧
      (∃ more, after.p2Integrity.digests = before.p2Integrity.digests ++ more) ∧
      (diskEnabled = true → ∀ segment, after.postingsSegment = some segment →
        FieldStored hash segment after.p2Integrity.digests terms field) := by
  obtain ⟨⟨base, flushedSegment⟩, tables, flushed, persisted, rfl⟩ := finishField_steps hash finished
  have continues := flushPayload_continues before.postingsSegment
    (filled diskEnabled terms).fieldPayload
  have held : ∀ last, (filled diskEnabled terms).fieldPayload ≠ [] →
      (flushPayload before.postingsSegment (filled diskEnabled terms).fieldPayload).2 = some last →
      ∃ base, (flushPayload before.postingsSegment (filled diskEnabled terms).fieldPayload).1 =
        some base ∧ last.Holds base (filled diskEnabled terms).fieldPayload := by
    intro last nonempty present
    exact flushPayload_some nonempty present
  rw [← flushed] at continues held
  dsimp only at persisted continues held
  have resident_of_memory : diskEnabled = false →
      tables.offsets = (filled diskEnabled terms).offsets ∧
        tables.blockOffsets = (filled diskEnabled terms).blockOffsets := by
    intro memory
    rw [persistOrKeepTermDirectory, if_pos (.inl memory)] at persisted
    have kept := keptResident_of_keep persisted ⟨rfl, rfl, rfl⟩ (.refl _) rfl
    rw [kept.tables_eq]
    exact ⟨rfl, rfl⟩
  rcases persist_cases hash persisted with kept | ⟨ordinal, blockDirBase, entriesBase, entries,
    directoryIntegrity, entriesIntegrity, spilled⟩
  · have tables_eq := kept.tables_eq
    subst tables_eq
    refine ⟨rfl, ⟨rfl, rfl, rfl, rfl, resident_of_memory, ?_⟩, continues.trans kept.segment.continues,
      ⟨[], ?_⟩, ?_⟩
    · rintro rfl
      rfl
    · rw [kept.p2Integrity.digests, List.append_nil]
    · rintro rfl segment present nonempty
      obtain ⟨earlier, found, reached⟩ := kept.segment.continues segment present
      obtain ⟨at_base, base_eq, holds⟩ := held earlier nonempty found
      subst base_eq
      exact ⟨at_base, holds.reaches reached, .resident rfl rfl rfl rfl rfl rfl⟩
  · have tables_eq := spilled.tables_eq
    subst tables_eq
    obtain ⟨first, last, found, present, reached, directory_held, entries_held⟩ := spilled.segment
    dsimp only at found
    refine ⟨rfl, ⟨rfl, rfl, rfl, rfl, resident_of_memory, fun _ => rfl⟩, ?_,
      ⟨directoryIntegrity.digests ++ entriesIntegrity.digests, ?_⟩, ?_⟩
    · rw [present]
      refine continues.trans ?_
      rw [found]
      exact .append reached
    · rw [spilled.digests, List.append_assoc]
    · rintro rfl segment here nonempty
      rw [present] at here
      cases here
      obtain ⟨at_base, base_eq, holds⟩ := held first nonempty found
      subst base_eq
      refine ⟨at_base, holds.reaches reached, .spilled blockDirBase entriesBase entries
        directoryIntegrity entriesIntegrity rfl spilled.few spilled.records directory_held
        entries_held rfl ?_ ?_⟩
      · exact ⟨ordinal, _, before.p2Integrity.digests, entriesIntegrity.digests,
          spilled.directory, spilled.digests, rfl⟩
      · refine ⟨ordinal, _, before.p2Integrity.digests ++ directoryIntegrity.digests, [],
          spilled.entries_region, ?_, List.length_append⟩
        rw [List.append_nil]
        exact spilled.digests

structure Indexed (terms : SortedMap String TermPostings) (fst : Fst) : Prop where
  keys : fst.keys = terms.keys
  number : ∀ i term postings, i < 2 ^ 32 → terms.entries[i]? = some (term, postings) →
    fst.get? term = some i

structure FieldOf (hash : List UInt8 → Digest) (diskEnabled : Bool)
    (segment : Option PostingsSegment) (digests : List Digest)
    (terms : SortedMap String TermPostings) (field : FieldPostings) : Prop where
  indexed : Indexed terms field.fst
  shape : FieldShape diskEnabled (terms.entries.map Prod.snd) field
  stored : diskEnabled = true → ∀ present, segment = some present →
    FieldStored hash present digests (terms.entries.map Prod.snd) field

structure Assembled (hash : List UInt8 → Digest) (diskEnabled : Bool) (inverted : Inverted)
    (dictionary : TermDictionary Digest) : Prop where
  disk : dictionary.diskEnabled = diskEnabled
  keys : dictionary.fields.keys = inverted.keys
  digests : dictionary.p2Integrity.digests.length < 2 ^ 32
  field : ∀ name terms, inverted.get? name = some terms →
    ∃ field, dictionary.fields.get? name = some field ∧
      FieldOf hash diskEnabled dictionary.postingsSegment dictionary.p2Integrity.digests terms field

def fieldInput (diskEnabled : Bool) (numbering : Nat → Nat) (terms : SortedMap String TermPostings) :
    Fst × FieldChannels :=
  (terms.mapIdx fun idx _ _ => numbering idx, filled diskEnabled (terms.entries.map Prod.snd))

theorem fieldInput_indexed (numbering : Nat → Nat) (exact_below : ∀ i, i < 2 ^ 32 → numbering i = i)
    (terms : SortedMap String TermPostings) :
    Indexed terms (terms.mapIdx fun idx _ _ => numbering idx) where
  keys := terms.keys_mapIdx _
  number := by
    intro i term postings small found
    rw [SortedMap.get?_mapIdx_of_getElem? _ found, exact_below i small]

theorem assemble_assembled (hash : List UInt8 → Digest) (device : Device) (diskEnabled : Bool)
    (maxBytes : Nat) (inverted : Inverted) (numbering : Nat → Nat)
    (exact_below : ∀ i, i < 2 ^ 32 → numbering i = i) :
    Assembled hash diskEnabled inverted
      (assemble hash device diskEnabled maxBytes
        (inverted.map (fieldInput diskEnabled numbering))) := by
  -- a field stays stored while the segment and the digests only grow
  obtain ⟨visited, kept, inputs, outputs⟩ :=
    (inverted.map (fieldInput diskEnabled numbering)).mapAccum_rule
    (fun state fieldOrdinal _ field =>
      finishField hash diskEnabled field.1 field.2 fieldOrdinal state)
    { postingsSegment := PostingsSegment.tryNew device
      p2Integrity := .withMaxBytes maxBytes
      postingsSkippedTerms := 0 }
    (fun state done => ∀ e ∈ done, ∀ terms, e.2.1 = fieldInput diskEnabled numbering terms →
      FieldOf hash diskEnabled state.postingsSegment state.p2Integrity.digests terms e.2.2)
    (by simp)
    (by
      intro state done name input member earlier e inside terms here
      obtain ⟨⟨_, given⟩, _, given_eq⟩ := List.mem_map.mp member
      cases given_eq
      dsimp only at inside ⊢
      cases finished : finishField hash diskEnabled (fieldInput diskEnabled numbering given).1
          (fieldInput diskEnabled numbering given).2 done.length state with
      | mk after field =>
        rw [finished] at inside
        obtain ⟨fst_eq, shape, continues, ⟨more, digests⟩, stored⟩ := finishField_spec hash finished
        rcases List.mem_append.mp inside with old | new
        · have before := earlier e old terms here
          refine ⟨before.indexed, before.shape, ?_⟩
          intro disk present found
          obtain ⟨previous, previous_found, reached⟩ := continues present found
          rw [digests]
          exact (before.stored disk previous previous_found).extend reached more
        · cases List.mem_singleton.mp new
          dsimp only at here ⊢
          have again := finished
          rw [here] at again
          obtain ⟨fst_eq, shape, _, _, stored⟩ := finishField_spec hash again
          refine ⟨?_, shape, stored⟩
          rw [fst_eq]
          exact fieldInput_indexed numbering exact_below terms)
  have table := assemble_table hash device diskEnabled maxBytes
    (inverted.map (fieldInput diskEnabled numbering))
  refine ⟨rfl, ?_, table.1, ?_⟩
  · exact (SortedMap.keys_mapAccum _ _ _).trans (SortedMap.keys_map _ _)
  · intro name terms found
    have input : (name, fieldInput diskEnabled numbering terms) ∈
        (inverted.map (fieldInput diskEnabled numbering)).entries :=
      List.mem_map.mpr ⟨(name, terms), (inverted.get?_eq_some_iff name terms).mp found, rfl⟩
    rw [← inputs] at input
    obtain ⟨⟨_, _, field⟩, inside, same⟩ := List.mem_map.mp input
    cases same
    refine ⟨field, ?_, kept _ inside terms rfl⟩
    refine (SortedMap.get?_eq_some_iff _ _ _).mpr ?_
    exact outputs ▸ List.mem_map.mpr ⟨_, inside, rfl⟩

theorem buildWithLimit_eq (hash : List UInt8 → Digest) (device : Device) (builder : PostingsBuilder)
    (diskEnabled : Bool) (maxBytes : Nat) :
    builder.buildWithLimit hash device diskEnabled maxBytes =
      assemble hash device diskEnabled maxBytes
        (builder.invert.map (fieldInput diskEnabled id)) := by
  rw [PostingsBuilder.buildWithLimit]
  congr 1
  apply SortedMap.ext_get?
  intro name
  rw [PostingsBuilder.invert, SortedMap.get?_map, SortedMap.get?_map, SortedMap.get?_map,
    SortedMap.get?_map]
  cases builder.fields.get? name with
  | none => rfl
  | some terms =>
    simp only [Option.map_some, foldl_pushPostings, SortedMap.mapIdx_map, fieldInput, id,
      SortedMap.map_entries, List.map_map]
    rfl

theorem buildWithLimit_assembled (hash : List UInt8 → Digest) (device : Device)
    (builder : PostingsBuilder) (diskEnabled : Bool) (maxBytes : Nat) :
    Assembled hash diskEnabled builder.invert
      (builder.buildWithLimit hash device diskEnabled maxBytes) := by
  rw [buildWithLimit_eq]
  exact assemble_assembled hash device diskEnabled maxBytes builder.invert id fun _ _ => rfl

theorem mergeTermDictionaries_eq (hash : List UInt8 → Digest) (device : Device)
    (sources : List (TermDictionary Digest)) (diskEnabled : Bool) (maxBytes : Nat)
    {inverted : Inverted} (read : mergedFields sources = some inverted) :
    mergeTermDictionaries hash device sources diskEnabled maxBytes =
      some (assemble hash device diskEnabled maxBytes
        (inverted.map (fieldInput diskEnabled (· % 2 ^ 32)))) := by
  rw [mergeTermDictionaries, read]
  simp only [Option.bind_eq_bind, Option.bind_some, Option.pure_def, foldl_pushTerm]
  rfl

theorem merge_assembled (hash : List UInt8 → Digest) (device : Device)
    (sources : List (TermDictionary Digest)) (diskEnabled : Bool) (maxBytes : Nat)
    {inverted : Inverted} (read : mergedFields sources = some inverted) :
    ∃ merged, mergeTermDictionaries hash device sources diskEnabled maxBytes = some merged ∧
      Assembled hash diskEnabled inverted merged := by
  refine ⟨_, mergeTermDictionaries_eq hash device sources diskEnabled maxBytes read, ?_⟩
  exact assemble_assembled hash device diskEnabled maxBytes inverted _ fun i small =>
    Nat.mod_eq_of_lt small

end Surch.Postings
