import Surch.Api.IdMapRuns

/-! What writes and refreshes assert, and what a failed assertion leaves. The widths of a slot are
asserted when the slot is packed, at the next densify and not when the source is written. -/
namespace Surch.Api
open Surch.Lib Surch.Index

section Outcomes

variable (zstd : Zstd) (maps : IdMaps)

/- An operation that ends, or what its failed assertion leaves of the snapshot behind the poisoned
lock. -/
abbrev Outcome := Except DenseIdMaps IdMaps

namespace DenseIdMaps

def withoutForward (dense : DenseIdMaps) : DenseIdMaps := { dense with forward := none }

def withoutTables (dense : DenseIdMaps) : DenseIdMaps :=
  { dense with reverseUids := [], reverseOffsets := [], documents := [] }

end DenseIdMaps

namespace IdMaps

def densifyFullOutcome : Outcome :=
  match maps.densifyFull with
  | some next => .ok next
  | none => .error maps.dense.withoutForward

def densifyAppendOnlyOutcome (oldBoundary : Nat) : Outcome :=
  match maps.densifyAppendOnly oldBoundary with
  | some next => .ok next
  | none =>
    let docIds := List.range' oldBoundary (maps.nextDocId - oldBoundary)
    match docIds.mapM fun docId => packSlot (maps.documentsDirty.get? docId) with
    | none => .error maps.dense.withoutTables
    | some _ => .error maps.dense.withoutTables.withoutForward

def densifyOutcome : Outcome :=
  match maps.sourceStore.flushPendingBlock zstd with
  | none => .error maps.dense
  | some sourceStore =>
    let maps := { maps with sourceStore }
    if maps.forwardDirty.entries.isEmpty ∧ maps.deletedSinceDense = ∅ ∧
        maps.documentsDirty.entries.isEmpty then
      .ok maps
    else
      let oldBoundary := maps.dense.docCount
      if maps.deletedSinceDense ≠ ∅ ∨ maps.documentsDirty.keys.any (· < oldBoundary) then
        maps.densifyFullOutcome
      else maps.densifyAppendOnlyOutcome oldBoundary

end IdMaps

def idMapOutcome (maps : IdMaps) : IdMapAction → Outcome
  | .upsert id serialized mode =>
    match maps.upsertDocumentDeferred zstd mode id serialized with
    | some next => .ok next
    | none => .error maps.dense
  | .delete id => .ok (maps.deleteDocumentDeferred id).2
  | .densify => maps.densifyOutcome zstd
  | .maybeDensifyByBudget budget =>
    match budget with
    | none => .ok maps
    | some budget =>
      if maps.nextDocId - maps.dense.docCount < budget then .ok maps else maps.densifyOutcome zstd

def idMapOutcomes (maps : IdMaps) : List IdMapAction → Outcome
  | [] => .ok maps
  | action :: rest =>
    match idMapOutcome zstd maps action with
    | .ok next => idMapOutcomes next rest
    | .error left => .error left

variable {zstd maps}

theorem densifyFullOutcome_ok_iff (next : IdMaps) :
    maps.densifyFullOutcome = .ok next ↔ maps.densifyFull = some next := by
  unfold IdMaps.densifyFullOutcome
  cases maps.densifyFull <;> simp

theorem densifyAppendOnlyOutcome_ok_iff (oldBoundary : Nat) (next : IdMaps) :
    maps.densifyAppendOnlyOutcome oldBoundary = .ok next ↔
      maps.densifyAppendOnly oldBoundary = some next := by
  unfold IdMaps.densifyAppendOnlyOutcome
  cases maps.densifyAppendOnly oldBoundary with
  | some last => simp
  | none =>
    dsimp only
    split <;> simp

theorem densifyOutcome_ok_iff (next : IdMaps) :
    maps.densifyOutcome zstd = .ok next ↔ maps.densify zstd = some next := by
  unfold IdMaps.densifyOutcome IdMaps.densify
  cases maps.sourceStore.flushPendingBlock zstd with
  | none => simp
  | some sourceStore =>
    simp only [Option.bind_eq_bind, Option.bind_some]
    split
    · simp
    · split
      · exact densifyFullOutcome_ok_iff next
      · exact densifyAppendOnlyOutcome_ok_iff _ next

theorem idMapOutcome_ok_iff (action : IdMapAction) (next : IdMaps) :
    idMapOutcome zstd maps action = .ok next ↔ idMapStep zstd maps action = some next := by
  cases action with
  | upsert id serialized mode =>
    simp only [idMapOutcome, idMapStep]
    cases maps.upsertDocumentDeferred zstd mode id serialized <;> simp
  | delete id => simp [idMapOutcome, idMapStep]
  | densify => exact densifyOutcome_ok_iff next
  | maybeDensifyByBudget budget =>
    simp only [idMapOutcome, idMapStep, IdMaps.maybeDensifyByBudget]
    cases budget with
    | none => simp
    | some budget =>
      dsimp only
      split
      · simp
      · exact densifyOutcome_ok_iff next

end Outcomes

section Limits

variable (zstd : Zstd)

def SourceStore.Seals (store : SourceStore) : Prop :=
  store.pending = [] ∨ store.segment.buf.length ≤ packedOffsetMax ∧
    (zstd.compress store.pending).length % 2 ^ 32 ≤ blockDirClenMax

def SlotFits : SourceBlob → Prop
  | .onDisk offset length _ => length ≤ packedLengthMax ∧ offset ≤ packedOffsetMax
  | .compressed _ => False

def IdMaps.SlotsFit (maps : IdMaps) : Prop :=
  ∀ docId blob, maps.documentsDirty.get? docId = some blob → SlotFits blob

/- A source that is stored with less than 4 MiB, and below 1 TiB if it is stored by itself. -/
def SourceFits (store : SourceStore) (serialized : List UInt8) (mode : SourceWriteMode) : Prop :=
  storedLength zstd serialized mode < 2 ^ 22 ∧
    (mode ≠ .zstdBlock → store.segment.buf.length ≤ packedOffsetMax)

instance (store : SourceStore) (serialized : List UInt8) (mode : SourceWriteMode) :
    Decidable (SourceFits zstd store serialized mode) :=
  inferInstanceAs (Decidable (_ < _ ∧ (_ → _ ≤ _)))

def wideAfter (maps : IdMaps) (wide : Finset String) : IdMapAction → Finset String
  | .upsert id serialized mode =>
    if SourceFits zstd maps.sourceStore serialized mode then wide.erase id else insert id wide
  | .delete id => wide.erase id
  | .densify => wide
  | .maybeDensifyByBudget _ => wide

/- The operations that return: a block is written while there are blocks left and its entry fits the
directory, and a densify finds no document that is too wide. -/
def IdMapAction.Packs (maps : IdMaps) (wide : Finset String) : IdMapAction → Prop
  | .upsert _ serialized mode =>
    mode = .zstdBlock → maps.sourceStore.blocks.length ≤ sourceBlockIdMax ∧
      (sourceBlockTargetBytes ≤ maps.sourceStore.pending.length + serialized.length →
        SourceStore.Seals zstd
          { maps.sourceStore with pending := maps.sourceStore.pending ++ serialized })
  | .delete _ => True
  | .densify => maps.sourceStore.Seals zstd ∧ wide = ∅
  | .maybeDensifyByBudget budget =>
    ∀ limit ∈ budget, limit ≤ maps.nextDocId - maps.dense.docCount →
      maps.sourceStore.Seals zstd ∧ wide = ∅

def RunPacks (maps : IdMaps) (wide : Finset String) : List IdMapAction → Prop
  | [] => True
  | action :: rest =>
    action.Packs zstd maps wide ∧
      ∀ next ∈ idMapStep zstd maps action, RunPacks next (wideAfter zstd maps wide action) rest

/- What is accepted: an identifier and a source that are not empty, a source far longer than any body;
and the numbers and identifier bytes the maps count with. -/
def IdMapAction.Accepted (maps : IdMaps) : IdMapAction → Prop
  | .upsert id serialized _ =>
    id ≠ "" ∧ serialized ≠ [] ∧ serialized.length < 2 ^ 31 ∧
      (maps.resolveUid id = none → maps.nextDocId + 1 < 2 ^ 32)
  | .delete _ => True
  | .densify => maps.liveUidBytes < 2 ^ 32
  | .maybeDensifyByBudget _ => maps.liveUidBytes < 2 ^ 32

def RunAccepted (maps : IdMaps) : List IdMapAction → Prop
  | [] => True
  | action :: rest =>
    action.Accepted maps ∧ ∀ next ∈ idMapStep zstd maps action, RunAccepted next rest

end Limits

section Stores

variable {zstd : Zstd} {store next : SourceStore}

theorem packBlockDirEntry_isSome_iff (fileOffset compressedLen : Nat) :
    (packBlockDirEntry fileOffset compressedLen).isSome = true ↔
      fileOffset ≤ packedOffsetMax ∧ compressedLen ≤ blockDirClenMax := by
  unfold packBlockDirEntry
  split <;> simp_all

theorem flushPendingBlock_isSome_iff :
    (store.flushPendingBlock zstd).isSome = true ↔ store.Seals zstd := by
  unfold SourceStore.flushPendingBlock SourceStore.Seals
  by_cases empty : store.pending = []
  · simp [empty]
  · rw [if_neg (by simpa using empty), or_iff_right empty, ← packBlockDirEntry_isSome_iff]
    simp only [SourceSegment.append]
    cases packBlockDirEntry store.segment.buf.length
      ((zstd.compress store.pending).length % 2 ^ 32) <;> rfl

theorem flushPendingBlock_pending (flushed : store.flushPendingBlock zstd = some next) :
    next.pending = [] := by
  unfold SourceStore.flushPendingBlock at flushed
  split at flushed
  · rename_i empty
    cases flushed
    simpa using empty
  · obtain ⟨entry, _, rest⟩ := Option.bind_eq_some_iff.mp flushed
    cases rest
    rfl

theorem storeSourceBytes_isSome_iff (short : store.pending.length < sourceBlockTargetBytes)
    (serialized : List UInt8) (mode : SourceWriteMode) :
    (storeSourceBytes zstd store serialized mode).isSome = true ↔
      (mode = .zstdBlock → store.blocks.length ≤ sourceBlockIdMax ∧
        (sourceBlockTargetBytes ≤ store.pending.length + serialized.length →
          SourceStore.Seals zstd { store with pending := store.pending ++ serialized })) := by
  cases mode with
  | raw => simp [storeSourceBytes]
  | zstdPerDoc => simp [storeSourceBytes]
  | zstdBlock =>
    have intra : store.pending.length % 2 ^ 32 ≤ sourceBlockIntraMax := by
      unfold sourceBlockTargetBytes at short
      unfold sourceBlockIntraMax sourceBlockIntraBits
      omega
    simp only [storeSourceBytes, SourceStore.appendBlockDoc, packBlockLocator, intra, and_true,
      forall_const, List.length_append]
    by_cases few : store.blocks.length ≤ sourceBlockIdMax
    · simp only [if_pos few, Option.bind_eq_bind, Option.bind_some]
      by_cases full : sourceBlockTargetBytes ≤ store.pending.length + serialized.length
      · rw [← flushPendingBlock_isSome_iff]
        cases flushed : SourceStore.flushPendingBlock zstd
            { store with pending := store.pending ++ serialized } <;> simp [full, few]
      · simp [full, few]
    · simp [few]

theorem storeSourceBytes_pending (short : store.pending.length < sourceBlockTargetBytes)
    {serialized : List UInt8} {mode : SourceWriteMode} {blob : SourceBlob}
    (stored : storeSourceBytes zstd store serialized mode = some (blob, next)) :
    next.pending.length < sourceBlockTargetBytes := by
  cases mode with
  | raw =>
    cases stored
    exact short
  | zstdPerDoc =>
    cases stored
    exact short
  | zstdBlock =>
    obtain ⟨⟨locator, store'⟩, appended, rest⟩ := Option.bind_eq_some_iff.mp stored
    cases rest
    obtain ⟨locator', _, rest⟩ := Option.bind_eq_some_iff.mp appended
    dsimp only at rest
    split at rest
    · obtain ⟨store'', flushed, rest⟩ := Option.bind_eq_some_iff.mp rest
      cases rest
      rw [flushPendingBlock_pending flushed]
      decide
    · rename_i room
      cases rest
      exact not_le.mp room

def Plausible : SourceBlob → Prop
  | .onDisk _ length codec => 0 < length ∧ codec ≤ packedCodecMax
  | .compressed _ => False

theorem packable_iff (blob : SourceBlob) : Packable blob ↔ Plausible blob ∧ SlotFits blob := by
  cases blob with
  | onDisk offset length codec =>
    simp only [Packable, Plausible, SlotFits]
    tauto
  | compressed bytes => simp [Packable, Plausible]

theorem slotFits_of_pack {blob : SourceBlob} (packed : (packSlot (some blob)).isSome = true) :
    SlotFits blob := by
  cases blob with
  | onDisk offset length codec =>
    simp only [packSlot, packSourceBlob, packDocumentSlot] at packed
    split at packed
    · rename_i fits
      exact fits
    · cases packed
  | compressed bytes => cases packed

/-- The slot of a stored source is no hole, and fits exactly when the source does. -/
theorem slotFits_stored_iff (lossless : zstd.Lossless) {serialized : List UInt8}
    (nonempty : serialized ≠ []) (short : serialized.length < 2 ^ 31) {mode : SourceWriteMode}
    {blob : SourceBlob}
    (stored : storeSourceBytes zstd store serialized mode = some (blob, next)) :
    Plausible blob ∧ (SlotFits blob ↔ SourceFits zstd store serialized mode) := by
  have positive := List.length_pos_iff.mpr nonempty
  have narrowed : serialized.length % 2 ^ 32 = serialized.length := Nat.mod_eq_of_lt (by omega)
  have widest : ∀ length, length ≤ packedLengthMax ↔ length < 2 ^ 22 := by
    intro length
    unfold packedLengthMax packedLengthBits
    omega
  cases mode with
  | raw =>
    simp only [storeSourceBytes, SourceSegment.append, narrowed, Option.some.injEq,
      Prod.mk.injEq] at stored
    obtain ⟨rfl, -⟩ := stored
    refine ⟨⟨positive, by decide⟩, ?_⟩
    simp [SlotFits, SourceFits, storedLength, widest]
  | zstdPerDoc =>
    have framed := List.length_pos_iff.mpr (lossless.framed serialized)
    have bound := lossless.bounded serialized
    have small : (zstd.compress serialized).length < 2 ^ 32 := by
      refine bound.trans_lt ?_
      unfold Zstd.compressBound
      split <;> omega
    simp only [storeSourceBytes, SourceSegment.append, Nat.mod_eq_of_lt small, Option.some.injEq,
      Prod.mk.injEq] at stored
    obtain ⟨rfl, -⟩ := stored
    refine ⟨⟨framed, by decide⟩, ?_⟩
    simp [SlotFits, SourceFits, storedLength, widest]
  | zstdBlock =>
    obtain ⟨⟨locator, store'⟩, appended, rest⟩ := Option.bind_eq_some_iff.mp stored
    cases rest
    obtain ⟨locator', located, rest⟩ := Option.bind_eq_some_iff.mp appended
    have inside := packBlockLocator_le located
    have same : locator = locator' := by
      dsimp only at rest
      split at rest
      · obtain ⟨store'', flushed, rest⟩ := Option.bind_eq_some_iff.mp rest
        cases rest
        rfl
      · cases rest
        rfl
    subst same
    rw [narrowed]
    refine ⟨⟨positive, by decide⟩, ?_⟩
    simp [SlotFits, SourceFits, storedLength, widest, inside]

end Stores

end Surch.Api
