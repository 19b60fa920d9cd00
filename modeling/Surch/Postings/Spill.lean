import Surch.Postings.Attestation
import Surch.Postings.Dictionary

/-! Spilling a field's directory: the packed records read back, and what a persist may do to the
segment and to the table of digests. -/
namespace Surch.Postings
open Surch.Lib Surch.Codec

structure TermEntry.Fits (entry : TermEntry) : Prop where
  postingsOffset : entry.postingsOffset < 2 ^ 64
  postingsLen : entry.postingsLen < 2 ^ 32
  postingsCount : entry.postingsCount < 2 ^ 32
  blockDirOffset : entry.blockDirOffset < 2 ^ 64
  blockDirCount : entry.blockDirCount < 2 ^ 32

@[simp] theorem encodeTermEntry_length (entry : TermEntry) :
    (encodeTermEntry entry).length = termEntryEncodedLen := by
  simp [encodeTermEntry, termEntryEncodedLen]

theorem decode_encodeTermEntry {entry : TermEntry} (fits : entry.Fits) :
    decodeTermEntry (encodeTermEntry entry) = some entry := by
  have long : ¬ (encodeTermEntry entry).length < termEntryEncodedLen := by simp
  have read8 : ∀ n, n < 2 ^ 64 → leNat (leBytes 8 n) = n := fun n small =>
    leNat_leBytes_of_lt (small.trans_eq (by norm_num))
  have read4 : ∀ n, n < 2 ^ 32 → leNat (leBytes 4 n) = n := fun n small =>
    leNat_leBytes_of_lt (small.trans_eq (by norm_num))
  rw [decodeTermEntry, if_neg long]
  simp only [encodeTermEntry, List.append_assoc, List.take_append, List.drop_append,
    leBytes_length, List.take_of_length_le, List.drop_of_length_le, Nat.reduceLeDiff, le_refl,
    Nat.reduceSub, List.take_zero, List.append_nil, List.nil_append, List.drop_zero,
    read8 _ fits.postingsOffset, read4 _ fits.postingsLen, read4 _ fits.postingsCount,
    read8 _ fits.blockDirOffset, read4 _ fits.blockDirCount]

structure DirFits (entry : BlockDirEntry) : Prop where
  offset : entry.byteOffsetInTermPayload < 2 ^ 32
  count : entry.count < 2 ^ 16
  maxDocId : entry.maxDocId < 2 ^ 32

@[simp] theorem encodeBlockDirEntry_length (entry : BlockDirEntry) :
    (encodeBlockDirEntry entry).length = blockDirEntryEncodedLen := by
  simp [encodeBlockDirEntry, blockDirEntryEncodedLen]

theorem encodedDirectory_length (entries : List BlockDirEntry) :
    (entries.flatMap encodeBlockDirEntry).length = entries.length * blockDirEntryEncodedLen := by
  rw [List.length_flatMap]
  simp

theorem encodedEntries_length (entries : List TermEntry) :
    (entries.flatMap encodeTermEntry).length = entries.length * termEntryEncodedLen := by
  rw [List.length_flatMap]
  simp

theorem decode_encodeBlockDirEntries (entries : List BlockDirEntry)
    (fits : ∀ entry ∈ entries, DirFits entry) :
    decodeBlockDirEntries (entries.flatMap encodeBlockDirEntry) entries.length = some entries := by
  have read4 : ∀ n, n < 2 ^ 32 → leNat (leBytes 4 n) = n := fun n small =>
    leNat_leBytes_of_lt (small.trans_eq (by norm_num))
  have read2 : ∀ n, n < 2 ^ 16 → leNat (leBytes 2 n) = n := fun n small =>
    leNat_leBytes_of_lt (small.trans_eq (by norm_num))
  induction entries with
  | nil => rfl
  | cons entry entries ih =>
    have here := fits entry List.mem_cons_self
    have rest := ih fun other member => fits other (List.mem_cons_of_mem _ member)
    have long : ¬ (encodeBlockDirEntry entry ++ entries.flatMap encodeBlockDirEntry).length <
        blockDirEntryEncodedLen := by
      rw [List.length_append, encodeBlockDirEntry_length]
      omega
    have tail : (encodeBlockDirEntry entry ++ entries.flatMap encodeBlockDirEntry).drop
        blockDirEntryEncodedLen = entries.flatMap encodeBlockDirEntry := by
      rw [← encodeBlockDirEntry_length entry, List.drop_left]
    rw [List.flatMap_cons, List.length_cons, decodeBlockDirEntries, if_neg long, tail, rest]
    simp only [encodeBlockDirEntry, List.append_assoc, List.take_append, List.drop_append,
      leBytes_length, List.take_of_length_le, List.drop_of_length_le, Nat.reduceLeDiff, le_refl,
      Nat.reduceSub, List.take_zero, List.append_nil, List.nil_append, List.drop_zero,
      read4 _ here.offset, read2 _ here.count, read4 _ here.maxDocId]
    rfl

section Persist

variable {Digest : Type}

def Continues (before after : Option PostingsSegment) : Prop :=
  ∀ next, after = some next → ∃ segment, before = some segment ∧ segment.Reaches next

theorem Continues.refl (segment : Option PostingsSegment) : Continues segment segment :=
  fun next here => ⟨next, here, .refl⟩

theorem Continues.trans {first second third : Option PostingsSegment}
    (left : Continues first second) (right : Continues second third) : Continues first third := by
  intro next here
  obtain ⟨middle, found, later⟩ := right next here
  obtain ⟨segment, start, earlier⟩ := left middle found
  exact ⟨segment, start, earlier.trans later⟩

theorem Continues.append {segment next : PostingsSegment} (reached : segment.Reaches next) :
    Continues (some segment) (some next) := by
  intro _ same
  cases same
  exact ⟨segment, rfl, reached⟩

/- The segment stays with more appended, or there was none. -/
inductive Extends : Option PostingsSegment → Option PostingsSegment → Prop
  | absent : Extends none none
  | grown {segment next : PostingsSegment} (reached : segment.Reaches next) :
    Extends (some segment) (some next)

theorem Extends.refl (segment : Option PostingsSegment) : Extends segment segment := by
  cases segment with
  | none => exact .absent
  | some segment => exact .grown .refl

theorem Extends.continues {before after : Option PostingsSegment} (extended : Extends before after) :
    Continues before after := by
  cases extended with
  | absent => exact .refl none
  | grown reached => exact .append reached

namespace P2IntegrityBuilder

structure Unpublished (before after : P2IntegrityBuilder Digest) : Prop where
  digests : after.digests = before.digests
  protectedFields : after.protectedFields = before.protectedFields
  maxBytes : after.maxBytes = before.maxBytes

theorem Unpublished.trans {first second third : P2IntegrityBuilder Digest}
    (left : first.Unpublished second) (right : second.Unpublished third) :
    first.Unpublished third :=
  ⟨right.digests.trans left.digests, right.protectedFields.trans left.protectedFields,
    right.maxBytes.trans left.maxBytes⟩

theorem recordLayout_unpublished (builder : P2IntegrityBuilder Digest) (terms blocks : Nat) :
    builder.Unpublished (builder.recordLayout terms blocks) := ⟨rfl, rfl, rfl⟩

theorem recordFallback_unpublished (builder : P2IntegrityBuilder Digest) :
    builder.Unpublished builder.recordFallback := ⟨rfl, rfl, rfl⟩

theorem publish_some {builder after : P2IntegrityBuilder Digest}
    {directory entries : P2DigestedRegion Digest} {integrity : P2FieldIntegrity}
    (published : builder.publish directory entries = (some integrity, after)) :
    builder.admits
        (builder.digests.length + directory.digests.length + entries.digests.length) = true ∧
      integrity = { entries := entries.region, directory := directory.region } ∧
      after.digests = builder.digests ++ directory.digests ++ entries.digests ∧
      after.protectedFields = builder.protectedFields + 1 ∧ after.maxBytes = builder.maxBytes := by
  unfold publish at published
  split at published
  · rename_i admitted
    cases published
    exact ⟨admitted, rfl, rfl, rfl, rfl⟩
  · cases published

theorem publish_none {builder after : P2IntegrityBuilder Digest}
    {directory entries : P2DigestedRegion Digest}
    (refused : builder.publish directory entries = (none, after)) : after = builder := by
  unfold publish at refused
  split at refused <;> cases refused
  rfl

end P2IntegrityBuilder

structure KeptResident (channels : TermDirectoryChannels) (before after : BuildState Digest)
    (tables : TermDirectoryTables) : Prop where
  tables_eq : tables = channels.intoResident
  p2Integrity : before.p2Integrity.Unpublished after.p2Integrity
  segment : Extends before.postingsSegment after.postingsSegment
  skipped : after.postingsSkippedTerms = before.postingsSkippedTerms

theorem keptResident_of_keep {channels : TermDirectoryChannels} {diskEnabled : Bool}
    {before middle after : BuildState Digest} {tables : TermDirectoryTables}
    (kept : keepTermDirectoryResident channels diskEnabled middle = (after, tables))
    (p2Integrity : before.p2Integrity.Unpublished middle.p2Integrity)
    (segment : Extends before.postingsSegment middle.postingsSegment)
    (skipped : middle.postingsSkippedTerms = before.postingsSkippedTerms) :
    KeptResident channels before after tables := by
  unfold keepTermDirectoryResident at kept
  split at kept
  · cases kept
    exact ⟨rfl, p2Integrity.trans (P2IntegrityBuilder.recordFallback_unpublished _), segment,
      skipped⟩
  · cases kept
    exact ⟨rfl, p2Integrity, segment, skipped⟩

structure SpilledTo (hash : List UInt8 → Digest) (channels : TermDirectoryChannels)
    (fieldOrdinal blockDirBase entriesBase : Nat) (entries : List TermEntry)
    (directoryIntegrity entriesIntegrity : P2DigestedRegion Digest)
    (before after : BuildState Digest) (tables : TermDirectoryTables) : Prop where
  segment : ∃ first last, before.postingsSegment = some first ∧
    after.postingsSegment = some last ∧ first.Reaches last ∧
    last.Holds blockDirBase (channels.blockDirectory.flatMap encodeBlockDirEntry) ∧
    last.Holds entriesBase (entries.flatMap encodeTermEntry)
  records : (List.range channels.segmentDescriptors.length).mapM (channels.termEntry blockDirBase) =
    some entries
  few : channels.segmentDescriptors.length < 2 ^ 32
  directory : p2DigestRegion hash .directory fieldOrdinal blockDirBase
    (channels.blockDirectory.flatMap encodeBlockDirEntry) before.p2Integrity.digests.length =
      some directoryIntegrity
  entries_region : p2DigestRegion hash .entries fieldOrdinal entriesBase
    (entries.flatMap encodeTermEntry)
    (before.p2Integrity.digests.length + directoryIntegrity.digests.length) = some entriesIntegrity
  admitted : before.p2Integrity.admits (before.p2Integrity.digests.length +
    directoryIntegrity.digests.length + entriesIntegrity.digests.length) = true
  digests : after.p2Integrity.digests =
    before.p2Integrity.digests ++ directoryIntegrity.digests ++ entriesIntegrity.digests
  protectedFields : after.p2Integrity.protectedFields = before.p2Integrity.protectedFields + 1
  maxBytes : after.p2Integrity.maxBytes = before.p2Integrity.maxBytes
  skipped : after.postingsSkippedTerms = before.postingsSkippedTerms
  tables_eq : tables =
    { segmentDescriptors := [], offsets := [], blockOffsets := [], blockDirectory := []
      blockDirOffsets := []
      termEntriesDirectory := some (entriesBase, channels.segmentDescriptors.length)
      p2Integrity := some
        { entries := entriesIntegrity.region, directory := directoryIntegrity.region } }

/-- A persist keeps the channels resident and the digests as they were, or spills the directory
and publishes exactly its two regions. -/
theorem persist_cases (hash : List UInt8 → Digest) {channels : TermDirectoryChannels}
    {diskEnabled : Bool} {fieldOrdinal : Option Nat} {before after : BuildState Digest}
    {tables : TermDirectoryTables}
    (persisted : persistOrKeepTermDirectory hash channels diskEnabled fieldOrdinal before =
      (after, tables)) :
    KeptResident channels before after tables ∨
      ∃ ordinal blockDirBase entriesBase entries directoryIntegrity entriesIntegrity,
        SpilledTo hash channels ordinal blockDirBase entriesBase entries directoryIntegrity
          entriesIntegrity before after tables := by
  have layout := before.p2Integrity.recordLayout_unpublished channels.segmentDescriptors.length
    channels.blockDirectory.length
  have same : Extends before.postingsSegment before.postingsSegment := .refl _
  unfold persistOrKeepTermDirectory at persisted
  dsimp only at persisted
  split at persisted
  · exact .inl (keptResident_of_keep persisted ⟨rfl, rfl, rfl⟩ same rfl)
  split at persisted
  · exact .inl (keptResident_of_keep persisted layout same rfl)
  split at persisted
  · exact .inl (keptResident_of_keep persisted layout same rfl)
  rename_i few
  split at persisted
  · exact .inl (keptResident_of_keep persisted layout same rfl)
  rename_i first found
  -- the segment is there: every later state extends it
  have once : ∀ bytes, Extends before.postingsSegment (some (first.append bytes).2) := by
    intro bytes
    rw [found]
    exact .grown (.append .refl bytes)
  split at persisted
  · rename_i second appended
    have := once (channels.blockDirectory.flatMap encodeBlockDirEntry)
    rw [appended] at this
    exact .inl (keptResident_of_keep persisted layout this rfl)
  rename_i blockDirBase second appended
  have second_eq : second = (first.append (channels.blockDirectory.flatMap encodeBlockDirEntry)).2 := by
    rw [appended]
  have grown : Extends before.postingsSegment (some second) := second_eq ▸ once _
  have held := PostingsSegment.append_holds (congrArg Prod.fst appended)
  rw [← second_eq] at held
  split at persisted
  · exact .inl (keptResident_of_keep persisted layout grown rfl)
  rename_i ordinal
  split at persisted
  · exact .inl (keptResident_of_keep persisted layout grown rfl)
  split at persisted
  · exact .inl (keptResident_of_keep persisted layout grown rfl)
  split at persisted
  · exact .inl (keptResident_of_keep persisted layout grown rfl)
  split at persisted
  · exact .inl (keptResident_of_keep persisted layout grown rfl)
  rename_i directoryIntegrity directory
  split at persisted
  · exact .inl (keptResident_of_keep persisted layout grown rfl)
  rename_i entries records
  have reached : first.Reaches second := second_eq ▸ .append .refl _
  split at persisted
  · rename_i third rejected
    have third_eq : third = (second.append (entries.flatMap encodeTermEntry)).2 := by rw [rejected]
    have grown : Extends before.postingsSegment (some third) := by
      rw [found, third_eq]
      exact .grown (reached.append _)
    exact .inl (keptResident_of_keep persisted layout grown rfl)
  rename_i entriesBase third accepted
  have third_eq : third = (second.append (entries.flatMap encodeTermEntry)).2 := by rw [accepted]
  have stored := PostingsSegment.append_holds (congrArg Prod.fst accepted)
  rw [← third_eq] at stored
  have last : second.Reaches third := third_eq ▸ .append .refl _
  have grown : Extends before.postingsSegment (some third) := by
    rw [found]
    exact .grown (reached.trans last)
  split at persisted
  · exact .inl (keptResident_of_keep persisted layout grown rfl)
  split at persisted
  · exact .inl (keptResident_of_keep persisted layout grown rfl)
  rename_i entriesIntegrity entries_region
  split at persisted
  · rename_i after' refused
    have := P2IntegrityBuilder.publish_none refused
    subst this
    exact .inl (keptResident_of_keep persisted layout grown rfl)
  · rename_i fieldIntegrity after' published
    obtain ⟨admitted, rfl, digests, protectedFields, maxBytes⟩ :=
      P2IntegrityBuilder.publish_some published
    cases persisted
    refine .inr ⟨ordinal, blockDirBase, entriesBase, entries, directoryIntegrity, entriesIntegrity,
      ⟨⟨first, third, found, rfl, reached.trans last, held.2.1.reaches last, stored.2.1⟩, records,
        by omega, directory, entries_region, admitted, digests, protectedFields, maxBytes, rfl,
        rfl⟩⟩

/- The channels a finished field hands to `persist`, once its payload is flushed. -/
def FieldChannels.directoryChannels (channels : FieldChannels) (fieldBaseOffset : Option Nat) :
    TermDirectoryChannels where
  segmentDescriptors := rebaseDescriptors fieldBaseOffset channels.segmentDescriptors
  offsets := channels.offsets
  blockOffsets := channels.blockOffsets
  blockDirectory := channels.blockDirectoryFlat
  blockDirOffsets := channels.blockDirOffsets

theorem finishField_steps (hash : List UInt8 → Digest) {diskEnabled : Bool} {fst : Fst}
    {channels : FieldChannels} {fieldOrdinal : Nat} {before after : BuildState Digest}
    {field : FieldPostings}
    (finished : finishField hash diskEnabled fst channels fieldOrdinal before = (after, field)) :
    ∃ flushed tables, flushed = flushPayload before.postingsSegment channels.fieldPayload ∧
      persistOrKeepTermDirectory hash (channels.directoryChannels flushed.1) diskEnabled
        (if fieldOrdinal < 2 ^ 32 then some fieldOrdinal else none)
        { before with
          postingsSegment := flushed.2
          postingsSkippedTerms := before.postingsSkippedTerms + channels.postingsSkippedTerms } =
        (after, tables) ∧
      field =
        { fst
          docIdsFlat := channels.docIdsFlat
          freqsFlat := channels.freqsFlat
          postingsCounts := channels.postingsCounts
          blockMetasFlat := channels.blockMetasFlat
          offsets := tables.offsets
          blockOffsets := tables.blockOffsets
          roaring := channels.roaring
          segmentDescriptors := tables.segmentDescriptors
          termEntriesDirectory := tables.termEntriesDirectory
          blockDirectory := tables.blockDirectory
          blockDirOffsets := tables.blockDirOffsets
          p2Integrity := tables.p2Integrity } := by
  unfold finishField at finished
  cases finished
  exact ⟨_, _, rfl, Prod.ext rfl rfl, rfl⟩

end Persist

end Surch.Postings
