import Surch.Api.Densify

/-! Over any run the id maps are a plain map from identifiers to documents and sources. -/
namespace Surch.Api
open Surch.Lib Surch.Index

/- The abstract map: an identifier's document and latest source, and the next unused document. -/
structure PlainMap where
  entries : SortedMap String (Nat × SourceBlob)
  next : Nat

namespace PlainMap

def empty : PlainMap := ⟨.empty, 0⟩

def upsert (plain : PlainMap) (id : String) (blob : SourceBlob) : PlainMap :=
  match plain.entries.get? id with
  | some (docId, _) => { plain with entries := plain.entries.upsert id fun _ => (docId, blob) }
  | none => ⟨plain.entries.upsert id fun _ => (plain.next, blob), plain.next + 1⟩

def delete (plain : PlainMap) (id : String) : PlainMap :=
  { plain with entries := plain.entries.erase id }

end PlainMap

inductive IdMapAction where
  | upsert (id : String) (serialized : List UInt8) (mode : SourceWriteMode)
  | delete (id : String)
  | densify
  | maybeDensifyByBudget (budget : Option Nat)

def idMapStep (zstd : Zstd) (maps : IdMaps) : IdMapAction → Option IdMaps
  | .upsert id serialized mode => maps.upsertDocumentDeferred zstd mode id serialized
  | .delete id => some (maps.deleteDocumentDeferred id).2
  | .densify => maps.densify zstd
  | .maybeDensifyByBudget budget => maps.maybeDensifyByBudget zstd budget

def idMapRun (zstd : Zstd) (maps : IdMaps) : List IdMapAction → Option IdMaps
  | [] => some maps
  | action :: rest => do
    let next ← idMapStep zstd maps action
    idMapRun zstd next rest

def plainStep (zstd : Zstd) (maps : IdMaps) (plain : PlainMap) : IdMapAction → PlainMap
  | .upsert id serialized mode =>
    match storeSourceBytes zstd maps.sourceStore serialized mode with
    | some (blob, _) => plain.upsert id blob
    | none => plain
  | .delete id => plain.delete id
  | .densify => plain
  | .maybeDensifyByBudget _ => plain

def plainRun (zstd : Zstd) (maps : IdMaps) (plain : PlainMap) : List IdMapAction → PlainMap
  | [] => plain
  | action :: rest =>
    match idMapStep zstd maps action with
    | some next => plainRun zstd next (plainStep zstd maps plain action) rest
    | none => plain

def storedLength (zstd : Zstd) (serialized : List UInt8) : SourceWriteMode → Nat
  | .zstdPerDoc => (zstd.compress serialized).length
  | _ => serialized.length

def IdMaps.CanDensify (maps : IdMaps) : Prop :=
  maps.liveUidBytes < 2 ^ 32 ∧ maps.sourceStore.HasRoom

/- The actions within the limits: identifiers and sources are not empty, sources are stored in less
than 4 MiB and in a file below 1 TiB, with the blocks and documents left that they take. -/
def IdMapAction.Fits (zstd : Zstd) (maps : IdMaps) : IdMapAction → Prop
  | .upsert id serialized mode =>
    id ≠ "" ∧ serialized ≠ [] ∧ storedLength zstd serialized mode < 2 ^ 22 ∧
      maps.sourceStore.segment.buf.length ≤ packedOffsetMax ∧
      (mode = .zstdBlock → maps.sourceStore.blocks.length ≤ sourceBlockIdMax) ∧
      (maps.resolveUid id = none → maps.nextDocId + 1 < 2 ^ 32)
  | .delete _ => True
  | .densify => maps.CanDensify
  | .maybeDensifyByBudget _ => maps.CanDensify

def FitsAll (zstd : Zstd) (maps : IdMaps) : List IdMapAction → Prop
  | [] => True
  | action :: rest =>
    action.Fits zstd maps ∧ ∀ next, idMapStep zstd maps action = some next → FitsAll zstd next rest

/- Everything that is read of the id maps is what the plain map says. -/
structure Agrees (maps : IdMaps) (plain : PlainMap) : Prop where
  resolve : ∀ id, maps.resolveUid id = (plain.entries.get? id).map Prod.fst
  uid : ∀ docId id, maps.uidForDocId docId = some id ↔ ∃ blob, plain.entries.get? id = some (docId, blob)
  blob : ∀ docId blob, maps.blobForDocId docId = some blob ↔
    ∃ id, plain.entries.get? id = some (docId, blob)
  count : maps.liveCount = plain.entries.entries.length
  next : maps.nextDocId = plain.next

section Refinement

variable {zstd : Zstd} {maps : IdMaps} {plain : PlainMap}

theorem storeSourceBytes_packs (lossless : zstd.Lossless) {store : SourceStore}
    (sound : store.Sound zstd) {serialized : List UInt8} {mode : SourceWriteMode}
    (nonempty : serialized ≠ []) (short : storedLength zstd serialized mode < 2 ^ 22)
    (file : store.segment.buf.length ≤ packedOffsetMax)
    (blocks : mode = .zstdBlock → store.blocks.length ≤ sourceBlockIdMax) :
    ∃ blob next, storeSourceBytes zstd store serialized mode = some (blob, next) ∧
      next.Sound zstd ∧ Packable blob := by
  have positive := List.length_pos_iff.mpr nonempty
  cases mode with
  | raw =>
    have narrowed : serialized.length % 2 ^ 32 = serialized.length :=
      Nat.mod_eq_of_lt (by simp only [storedLength] at short; omega)
    refine ⟨_, _, rfl, sound.append serialized, ?_⟩
    simp only [narrowed]
    exact ⟨positive, Nat.le_sub_one_of_lt short, file, by decide⟩
  | zstdPerDoc =>
    have framed := List.length_pos_iff.mpr (lossless.framed serialized)
    have narrowed : (zstd.compress serialized).length % 2 ^ 32 = (zstd.compress serialized).length :=
      Nat.mod_eq_of_lt (by simp only [storedLength] at short; omega)
    refine ⟨_, _, rfl, sound.append _, ?_⟩
    simp only [narrowed]
    exact ⟨framed, Nat.le_sub_one_of_lt short, file, by decide⟩
  | zstdBlock =>
    obtain ⟨locator, next, stored, _, sound, _, inside⟩ :=
      appendBlockDoc_spec lossless sound ⟨file, blocks rfl⟩ short
    have narrowed : serialized.length % 2 ^ 32 = serialized.length :=
      Nat.mod_eq_of_lt (by simp only [storedLength] at short; omega)
    refine ⟨.onDisk locator serialized.length sourceCodecBlock, next, ?_, sound,
      positive, Nat.le_sub_one_of_lt short, inside, by decide⟩
    simp only [storeSourceBytes, stored, Option.bind_eq_bind, Option.bind_some, narrowed]
    rfl

structure SoundMaps (zstd : Zstd) (maps : IdMaps) : Prop where
  layered : Layered maps
  store : maps.sourceStore.Sound zstd

theorem Layered.with_store (layered : Layered maps) (store : SourceStore) :
    Layered { maps with sourceStore := store } :=
  ⟨layered.dense, layered.counted, layered.bounded, layered.mirrored, layered.fresh,
    layered.shadowed, layered.written, layered.owned, layered.tombstones⟩

theorem Agrees.of_views (layered : Layered maps)
    (uid : ∀ docId id, maps.uidForDocId docId = some id ↔
      ∃ blob, plain.entries.get? id = some (docId, blob))
    (blob : ∀ docId blob, maps.blobForDocId docId = some blob ↔
      ∃ id, plain.entries.get? id = some (docId, blob))
    (count : maps.liveCount = plain.entries.entries.length) (next : maps.nextDocId = plain.next) :
    Agrees maps plain := by
  refine ⟨?_, uid, blob, count, next⟩
  intro id
  apply Option.ext
  intro docId
  rw [layered.resolveUid_iff, uid, Option.map_eq_some_iff]
  constructor
  · rintro ⟨blob, found⟩
    exact ⟨(docId, blob), found, rfl⟩
  · rintro ⟨⟨d, blob⟩, found, rfl⟩
    exact ⟨blob, found⟩

theorem Agrees.of_same {other : IdMaps} (agrees : Agrees maps plain) (layered : Layered other)
    (count : other.liveCount = maps.liveCount) (next : other.nextDocId = maps.nextDocId)
    (uids : ∀ docId, other.uidForDocId docId = maps.uidForDocId docId)
    (blobs : ∀ docId, other.blobForDocId docId = maps.blobForDocId docId) : Agrees other plain :=
  .of_views layered (fun docId id => by rw [uids]; exact agrees.uid docId id)
    (fun docId blob => by rw [blobs]; exact agrees.blob docId blob) (count.trans agrees.count)
    (next.trans agrees.next)

theorem upsert_agrees (lossless : zstd.Lossless) (sound : SoundMaps zstd maps)
    (agrees : Agrees maps plain) {id : String} {serialized : List UInt8} {mode : SourceWriteMode}
    (fits : (IdMapAction.upsert id serialized mode).Fits zstd maps) :
    ∃ next, maps.upsertDocumentDeferred zstd mode id serialized = some next ∧ SoundMaps zstd next ∧
      Agrees next (plainStep zstd maps plain (.upsert id serialized mode)) := by
  obtain ⟨named, nonempty, short, file, blocks, left⟩ := fits
  obtain ⟨blob, store, stored, sound', packable⟩ :=
    storeSourceBytes_packs lossless sound.store nonempty short file blocks
  have layered := sound.layered.with_store store
  simp only [IdMaps.upsertDocumentDeferred, stored, plainStep, Option.bind_eq_bind, Option.bind_some]
  have same : IdMaps.resolveUid { maps with sourceStore := store } id = maps.resolveUid id := rfl
  rw [same]
  have resolve := agrees.resolve id
  cases resolved : maps.resolveUid id with
  | some docId =>
    rw [resolved] at resolve
    obtain ⟨⟨d, before⟩, known, here⟩ := Option.map_eq_some_iff.mp resolve.symm
    obtain rfl : docId = d := here.symm
    obtain ⟨updated, blobs⟩ := layered.update resolved packable
    refine ⟨_, rfl, ⟨updated, sound'⟩, ?_⟩
    have entries : plain.upsert id blob =
        { plain with entries := plain.entries.upsert id fun _ => (docId, blob) } := by
      rw [PlainMap.upsert, known]
    have only : ∀ other b, plain.entries.get? other = some (docId, b) → other = id := by
      intro other b found
      have at_other := (agrees.uid docId other).mpr ⟨b, found⟩
      rw [(agrees.uid docId id).mpr ⟨before, known⟩] at at_other
      exact (Option.some.inj at_other).symm
    rw [entries]
    refine .of_views updated ?_ ?_ ?_ agrees.next
    · intro d other
      have uids : IdMaps.uidForDocId
          { maps with
            sourceStore := store
            documentsDirty := maps.documentsDirty.upsert docId fun _ => blob } d =
          maps.uidForDocId d := rfl
      rw [uids, agrees.uid, SortedMap.get?_upsert]
      by_cases here : other = id
      · subst here
        rw [if_pos rfl, known]
        simp
      · rw [if_neg here]
    · intro d b
      rw [blobs]
      simp only [SortedMap.get?_upsert]
      by_cases here : d = docId
      · subst here
        rw [if_pos rfl]
        constructor
        · intro found
          cases found
          exact ⟨id, by rw [if_pos rfl]⟩
        · rintro ⟨other, found⟩
          split at found
          · cases found
            rfl
          · rename_i apart
            exact absurd (only other b found) apart
      · rw [if_neg here]
        have kept := agrees.blob d b
        constructor
        · intro found
          obtain ⟨other, entry⟩ := kept.mp found
          refine ⟨other, ?_⟩
          rw [if_neg]
          · exact entry
          · rintro rfl
            rw [known] at entry
            cases entry
            exact here rfl
        · rintro ⟨other, found⟩
          split at found
          · cases found
            exact absurd rfl here
          · exact kept.mpr ⟨other, found⟩
    · rw [SortedMap.length_upsert_of_get? known]
      exact agrees.count
  | none =>
    rw [resolved] at resolve
    have unknown : plain.entries.get? id = none := by simpa using resolve.symm
    obtain ⟨inserted, after, uids, blobs⟩ := layered.insertion named resolved packable (left resolved)
    refine ⟨_, rfl, ⟨inserted, sound'⟩, ?_⟩
    have entries : plain.upsert id blob =
        ⟨plain.entries.upsert id fun _ => (plain.next, blob), plain.next + 1⟩ := by
      rw [PlainMap.upsert, unknown]
    have unused : ∀ other b, plain.entries.get? other ≠ some (plain.next, b) := by
      intro other b found
      have := sound.layered.uid_inside ((agrees.uid _ _).mpr ⟨b, found⟩)
      rw [agrees.next] at this
      exact lt_irrefl _ this
    rw [entries]
    refine .of_views inserted ?_ ?_ ?_ (after.trans (by rw [agrees.next]))
    · intro d other
      rw [uids, SortedMap.get?_upsert]
      have kept : IdMaps.uidForDocId { maps with sourceStore := store } d = maps.uidForDocId d := rfl
      by_cases here : other = id
      · subst here
        rw [if_pos rfl]
        by_cases new : d = maps.nextDocId
        · simp [new, agrees.next]
        · rw [if_neg new, kept, agrees.uid, unknown]
          simp [← agrees.next, Ne.symm new]
      · rw [if_neg here]
        by_cases new : d = maps.nextDocId
        · rw [if_pos new, new, agrees.next]
          simp only [Option.some.injEq, Ne.symm here, false_iff, not_exists]
          exact unused other
        · rw [if_neg new, kept, agrees.uid]
    · intro d b
      rw [blobs]
      simp only [SortedMap.get?_upsert]
      have kept : IdMaps.blobForDocId { maps with sourceStore := store } d = maps.blobForDocId d := rfl
      by_cases new : d = maps.nextDocId
      · rw [if_pos new, new, agrees.next]
        constructor
        · intro found
          cases found
          exact ⟨id, by rw [if_pos rfl]⟩
        · rintro ⟨other, found⟩
          split at found
          · cases found
            rfl
          · exact absurd found (unused other b)
      · rw [if_neg new, kept, agrees.blob]
        constructor
        · rintro ⟨other, found⟩
          refine ⟨other, ?_⟩
          rw [if_neg]
          · exact found
          · rintro rfl
            rw [unknown] at found
            cases found
        · rintro ⟨other, found⟩
          split at found
          · cases found
            exact absurd agrees.next.symm new
          · exact ⟨other, found⟩
    · rw [SortedMap.length_upsert unknown, ← agrees.count]

theorem delete_agrees (sound : SoundMaps zstd maps) (agrees : Agrees maps plain) (id : String) :
    SoundMaps zstd (maps.deleteDocumentDeferred id).2 ∧
      Agrees (maps.deleteDocumentDeferred id).2 (plain.delete id) := by
  have resolve := agrees.resolve id
  cases resolved : maps.resolveUid id with
  | none =>
    rw [resolved] at resolve
    have unknown : plain.entries.get? id = none := by simpa using resolve.symm
    have same : plain.delete id = plain := by
      have erased : plain.entries.erase id = plain.entries := by
        apply SortedMap.ext_get?
        intro other
        rw [SortedMap.get?_erase]
        split
        · rename_i here
          rw [here, unknown]
        · rfl
      rw [PlainMap.delete, erased]
    simp only [IdMaps.deleteDocumentDeferred, resolved, same]
    exact ⟨sound, agrees⟩
  | some docId =>
    rw [resolved] at resolve
    obtain ⟨⟨d, before⟩, known, numbered⟩ := Option.map_eq_some_iff.mp resolve.symm
    obtain rfl : docId = d := numbered.symm
    obtain ⟨deleted, uids, blobs⟩ := sound.layered.deletion resolved
    have only : ∀ other b, plain.entries.get? other = some (docId, b) → other = id := by
      intro other b found
      have at_other := (agrees.uid docId other).mpr ⟨b, found⟩
      rw [(agrees.uid docId id).mpr ⟨before, known⟩] at at_other
      exact (Option.some.inj at_other).symm
    have store : (maps.deleteDocumentDeferred id).2.sourceStore = maps.sourceStore := by
      simp only [IdMaps.deleteDocumentDeferred, resolved]
    have next : (maps.deleteDocumentDeferred id).2.nextDocId = maps.nextDocId := by
      simp only [IdMaps.deleteDocumentDeferred, resolved]
    have count : (maps.deleteDocumentDeferred id).2.liveCount = maps.liveCount - 1 := by
      simp only [IdMaps.deleteDocumentDeferred, resolved]
    have entry : ∀ other d b, (plain.entries.erase id).get? other = some (d, b) ↔
        plain.entries.get? other = some (d, b) ∧ d ≠ docId := by
      intro other d b
      rw [SortedMap.get?_erase]
      by_cases here : other = id
      · subst here
        rw [if_pos rfl, known]
        simp only [reduceCtorEq, Option.some.injEq, Prod.mk.injEq, false_iff]
        rintro ⟨⟨rfl, _⟩, apart⟩
        exact apart rfl
      · rw [if_neg here]
        constructor
        · intro found
          refine ⟨found, ?_⟩
          rintro rfl
          exact here (only other b found)
        · exact And.left
    refine ⟨⟨deleted, by rw [store]; exact sound.store⟩, .of_views deleted ?_ ?_ ?_ ?_⟩
    · intro d other
      rw [uids]
      simp only [PlainMap.delete, entry, exists_and_right, ← agrees.uid]
      by_cases gone : d = docId <;> simp [gone]
    · intro d b
      rw [blobs]
      simp only [PlainMap.delete, entry, exists_and_right, ← agrees.blob]
      by_cases gone : d = docId <;> simp [gone]
    · rw [count, agrees.count, SortedMap.length_erase known]
      rfl
    · rw [next]
      exact agrees.next

theorem densify_agrees (lossless : zstd.Lossless) (sound : SoundMaps zstd maps)
    (agrees : Agrees maps plain) (can : maps.CanDensify) :
    ∃ next, maps.densify zstd = some next ∧ SoundMaps zstd next ∧ Agrees next plain := by
  obtain ⟨next, folded, layered, store, count, numbered, uids, blobs⟩ :=
    sound.layered.densify lossless can.1 sound.store can.2
  exact ⟨next, folded, ⟨layered, store⟩, agrees.of_same layered count numbered uids blobs⟩

/-- An action within the limits does not fail and does to the maps what it does to the plain map. -/
theorem idMapStep_agrees (lossless : zstd.Lossless) (sound : SoundMaps zstd maps)
    (agrees : Agrees maps plain) {action : IdMapAction} (fits : action.Fits zstd maps) :
    ∃ next, idMapStep zstd maps action = some next ∧ SoundMaps zstd next ∧
      Agrees next (plainStep zstd maps plain action) := by
  cases action with
  | upsert id serialized mode => exact upsert_agrees lossless sound agrees fits
  | delete id =>
    obtain ⟨sound', agrees'⟩ := delete_agrees sound agrees id
    exact ⟨_, rfl, sound', agrees'⟩
  | densify => exact densify_agrees lossless sound agrees fits
  | maybeDensifyByBudget budget =>
    simp only [idMapStep, IdMaps.maybeDensifyByBudget, plainStep]
    cases budget with
    | none => exact ⟨maps, rfl, sound, agrees⟩
    | some budget =>
      dsimp only
      split
      · exact ⟨maps, rfl, sound, agrees⟩
      · exact densify_agrees lossless sound agrees fits

theorem idMapRun_agrees (lossless : zstd.Lossless) (actions : List IdMapAction)
    (sound : SoundMaps zstd maps) (agrees : Agrees maps plain) (fits : FitsAll zstd maps actions) :
    ∃ last, idMapRun zstd maps actions = some last ∧ SoundMaps zstd last ∧
      Agrees last (plainRun zstd maps plain actions) := by
  induction actions generalizing maps plain with
  | nil => exact ⟨maps, rfl, sound, agrees⟩
  | cons action rest ih =>
    obtain ⟨next, stepped, sound', agrees'⟩ := idMapStep_agrees lossless sound agrees fits.1
    obtain ⟨last, finished, done⟩ := ih sound' agrees' (fits.2 next stepped)
    refine ⟨last, ?_, ?_⟩
    · rw [idMapRun, stepped]
      exact finished
    · rw [plainRun, stepped]
      exact done

theorem idMapRun_append (zstd : Zstd) (maps : IdMaps) (first second : List IdMapAction) :
    idMapRun zstd maps (first ++ second) =
      (idMapRun zstd maps first).bind fun next => idMapRun zstd next second := by
  induction first generalizing maps with
  | nil => rfl
  | cons action rest ih =>
    rw [List.cons_append, idMapRun, idMapRun]
    cases idMapStep zstd maps action with
    | none => rfl
    | some next => exact ih next

theorem FitsAll.split {first second : List IdMapAction} (fits : FitsAll zstd maps (first ++ second)) :
    FitsAll zstd maps first ∧
      ∀ next, idMapRun zstd maps first = some next → FitsAll zstd next second := by
  induction first generalizing maps with
  | nil =>
    refine ⟨trivial, ?_⟩
    intro next finished
    cases finished
    exact fits
  | cons action rest ih =>
    refine ⟨⟨fits.1, fun next stepped => (ih (fits.2 next stepped)).1⟩, ?_⟩
    intro last finished
    rw [idMapRun] at finished
    obtain ⟨next, stepped, later⟩ := Option.bind_eq_some_iff.mp finished
    exact (ih (fits.2 next stepped)).2 last later

def PlainMap.Retired (plain : PlainMap) (docId : Nat) : Prop :=
  docId < plain.next ∧ ∀ id blob, plain.entries.get? id ≠ some (docId, blob)

theorem PlainMap.Retired.upsert {docId : Nat} (retired : plain.Retired docId) (id : String)
    (blob : SourceBlob) : (plain.upsert id blob).Retired docId := by
  obtain ⟨handed, absent⟩ := retired
  unfold PlainMap.upsert
  cases known : plain.entries.get? id with
  | some entry =>
    refine ⟨handed, ?_⟩
    intro other b found
    rw [SortedMap.get?_upsert] at found
    split at found
    · cases found
      exact absent id entry.2 known
    · exact absent other b found
  | none =>
    refine ⟨Nat.lt_succ_of_lt handed, ?_⟩
    intro other b found
    rw [SortedMap.get?_upsert] at found
    split at found
    · cases found
      exact lt_irrefl _ handed
    · exact absent other b found

theorem PlainMap.Retired.delete {docId : Nat} (retired : plain.Retired docId) (id : String) :
    (plain.delete id).Retired docId := by
  refine ⟨retired.1, ?_⟩
  intro other b found
  rw [PlainMap.delete, SortedMap.get?_erase] at found
  split at found
  · cases found
  · exact retired.2 other b found

theorem PlainMap.Retired.run {docId : Nat} (actions : List IdMapAction) (retired : plain.Retired docId) :
    (plainRun zstd maps plain actions).Retired docId := by
  induction actions generalizing maps plain with
  | nil => exact retired
  | cons action rest ih =>
    rw [plainRun]
    cases idMapStep zstd maps action with
    | none => exact retired
    | some next =>
      apply ih
      cases action with
      | upsert id serialized mode =>
        rw [plainStep]
        cases storeSourceBytes zstd maps.sourceStore serialized mode with
        | none => exact retired
        | some stored => exact retired.upsert id stored.1
      | delete id => exact retired.delete id
      | densify => exact retired
      | maybeDensifyByBudget budget => exact retired

theorem Agrees.retired_iff (agrees : Agrees maps plain) {docId : Nat} (handed : docId < maps.nextDocId) :
    maps.uidForDocId docId = none ↔ plain.Retired docId := by
  constructor
  · intro absent
    refine ⟨agrees.next ▸ handed, ?_⟩
    intro id blob found
    rw [(agrees.uid docId id).mpr ⟨blob, found⟩] at absent
    cases absent
  · intro retired
    apply Option.eq_none_iff_forall_ne_some.mpr
    intro id found
    obtain ⟨blob, entry⟩ := (agrees.uid docId id).mp found
    exact retired.2 id blob entry

theorem new_sound (zstd : Zstd) (epoch : Nat) : SoundMaps zstd (.new epoch) where
  layered :=
    { dense := default_sound
      counted := (by decide : DenseIdMaps.default.docCount ≤ 0)
      bounded := by simp [IdMaps.new]
      mirrored := by simp [IdMaps.new]
      fresh := by simp [IdMaps.new]
      shadowed := by simp [IdMaps.new]
      written := by simp [IdMaps.new]
      owned := by simp [IdMaps.new]
      tombstones := by simp [IdMaps.new] }
  store := ⟨by simp [IdMaps.new, SourceStore.default], (by decide : 0 < sourceBlockTargetBytes)⟩

theorem new_agrees (zstd : Zstd) (epoch : Nat) : Agrees (.new epoch) .empty := by
  refine .of_views (new_sound zstd epoch).layered ?_ ?_ rfl rfl
  · intro docId id
    simp [IdMaps.uidForDocId, IdMaps.new, PlainMap.empty, DenseIdMaps.uid, DenseIdMaps.default]
  · intro docId blob
    simp [IdMaps.blobForDocId, IdMaps.new, PlainMap.empty, DenseIdMaps.blob, DenseIdMaps.default]

/-- Over every run within the limits the id maps read as the plain map: identifiers and documents
are inverse, a document that was deleted stays deleted, and a densify is not seen. -/
theorem id_maps_refine_plain_map (zstd : Zstd) (lossless : zstd.Lossless) (epoch : Nat)
    (actions : List IdMapAction) (fits : FitsAll zstd (.new epoch) actions) :
    ∃ last, idMapRun zstd (.new epoch) actions = some last ∧
      Agrees last (plainRun zstd (.new epoch) .empty actions) ∧
      (∀ id docId, last.resolveUid id = some docId ↔ last.uidForDocId docId = some id) ∧
      (∀ first second before docId, actions = first ++ second →
        idMapRun zstd (.new epoch) first = some before → docId < before.nextDocId →
        before.uidForDocId docId = none →
          last.uidForDocId docId = none ∧ last.blobForDocId docId = none) ∧
      (last.CanDensify → ∃ next, last.densify zstd = some next ∧
        (∀ id, next.resolveUid id = last.resolveUid id) ∧
        (∀ docId, next.uidForDocId docId = last.uidForDocId docId) ∧
        (∀ docId, next.blobForDocId docId = last.blobForDocId docId) ∧
        next.liveCount = last.liveCount) := by
  obtain ⟨last, finished, sound, agrees⟩ :=
    idMapRun_agrees lossless actions (new_sound zstd epoch) (new_agrees zstd epoch) fits
  refine ⟨last, finished, agrees, sound.layered.resolveUid_iff, ?_, ?_⟩
  · rintro first second before docId rfl reached handed absent
    obtain ⟨before', reached', sound', agrees'⟩ :=
      idMapRun_agrees lossless first (new_sound zstd epoch) (new_agrees zstd epoch) fits.split.1
    obtain rfl : before = before' := Option.some.inj (reached.symm.trans reached')
    obtain ⟨last', finished', _, agrees''⟩ :=
      idMapRun_agrees lossless second sound' agrees' (fits.split.2 before reached)
    rw [idMapRun_append, reached, Option.bind_some, finished'] at finished
    obtain rfl : last' = last := Option.some.inj finished
    have retired : (plainRun zstd before _ second).Retired docId :=
      ((agrees'.retired_iff handed).mp absent).run second
    have gone : last'.uidForDocId docId = none :=
      (agrees''.retired_iff (agrees''.next ▸ retired.1)).mpr retired
    have unstored := sound.layered.blob_isSome docId
    rw [gone] at unstored
    exact ⟨gone, by simpa using unstored⟩
  · intro can
    obtain ⟨next, folded, layered, _, count, _, uids, blobs⟩ :=
      sound.layered.densify lossless can.1 sound.store can.2
    refine ⟨next, folded, ?_, uids, blobs, count⟩
    intro id
    apply Option.ext
    intro docId
    rw [layered.resolveUid_iff, sound.layered.resolveUid_iff, uids]

end Refinement

section Sample

instance (zstd : Zstd) (maps : IdMaps) (action : IdMapAction) : Decidable (action.Fits zstd maps) :=
  match action with
  | .upsert id serialized mode =>
    inferInstanceAs (Decidable (id ≠ "" ∧ serialized ≠ [] ∧ storedLength zstd serialized mode < 2 ^ 22 ∧
      maps.sourceStore.segment.buf.length ≤ packedOffsetMax ∧
      (mode = .zstdBlock → maps.sourceStore.blocks.length ≤ sourceBlockIdMax) ∧
      (maps.resolveUid id = none → maps.nextDocId + 1 < 2 ^ 32)))
  | .delete _ => .isTrue trivial
  | .densify => inferInstanceAs (Decidable (_ ∧ _ ≤ _ ∧ _ ≤ _))
  | .maybeDensifyByBudget _ => inferInstanceAs (Decidable (_ ∧ _ ≤ _ ∧ _ ≤ _))

theorem fitsAll_cons_iff (zstd : Zstd) (maps : IdMaps) (action : IdMapAction) (rest : List IdMapAction) :
    FitsAll zstd maps (action :: rest) ↔ action.Fits zstd maps ∧
      ∀ next ∈ idMapStep zstd maps action, FitsAll zstd next rest := Iff.rfl

instance fitsAllDecidable (zstd : Zstd) : (maps : IdMaps) → (actions : List IdMapAction) →
    Decidable (FitsAll zstd maps actions)
  | _, [] => .isTrue trivial
  | maps, action :: rest =>
    have : ∀ next, Decidable (FitsAll zstd next rest) := fun next => fitsAllDecidable zstd next rest
    match stepped : idMapStep zstd maps action with
    | none => decidable_of_iff (action.Fits zstd maps) (by simp [fitsAll_cons_iff, stepped])
    | some next =>
      decidable_of_iff (action.Fits zstd maps ∧ FitsAll zstd next rest)
        (by simp [fitsAll_cons_iff, stepped])

def sampleIdMapActions : List IdMapAction :=
  [.upsert "a" [0x7b, 0x7d] .raw, .upsert "b" [0x7b, 0x7d] .zstdBlock, .densify, .delete "a",
    .upsert "a" [0x7b, 0x7d] .zstdPerDoc, .upsert "b" [0x7b, 0x7d] .raw, .maybeDensifyByBudget (some 1),
    .delete "b"]

theorem id_maps_refine_plain_map_put_back :
    FitsAll storedFrame (.new 0) sampleIdMapActions ∧
      ∃ last, idMapRun storedFrame (.new 0) sampleIdMapActions = some last ∧
        last.resolveUid "a" = some 2 ∧ last.uidForDocId 0 = none ∧ last.liveCount = 1 := by
  have fits : FitsAll storedFrame (.new 0) sampleIdMapActions := by decide +kernel
  obtain ⟨last, finished, agrees, _⟩ :=
    id_maps_refine_plain_map storedFrame storedFrame_lossless 0 sampleIdMapActions fits
  have evaluated : (idMapRun storedFrame (.new 0) sampleIdMapActions).map
      (fun last => (last.resolveUid "a", last.uidForDocId 0, last.liveCount)) =
      some (some 2, none, 1) := by decide +kernel
  rw [finished, Option.map_some, Option.some.injEq, Prod.mk.injEq, Prod.mk.injEq] at evaluated
  exact ⟨fits, last, finished, evaluated⟩

end Sample

section Limits

def vacated (store : SourceStore) (next : Nat) : IdMaps :=
  { IdMaps.new 0 with sourceStore := store, nextDocId := next }

theorem erase_upsert_empty {K V : Type} [LinearOrder K] (k : K) (v : V) :
    ((SortedMap.empty : SortedMap K V).upsert k fun _ => v).erase k = .empty := by
  apply SortedMap.ext_get?
  intro x
  rw [SortedMap.get?_erase, SortedMap.get?_upsert]
  split <;> simp

def occupied (store : SourceStore) (next : Nat) (id : String) (blob : SourceBlob) : IdMaps :=
  { vacated store ((next + 1) % 2 ^ 32) with
    forwardDirty := SortedMap.empty.upsert id fun _ => next
    reverseDirty := SortedMap.empty.upsert next fun _ => id
    documentsDirty := SortedMap.empty.upsert next fun _ => blob
    liveCount := 1 }

theorem upsert_vacated (zstd : Zstd) (id : String) {bytes : List UInt8} {mode : SourceWriteMode}
    {store after : SourceStore} {blob : SourceBlob} (next : Nat)
    (stored : storeSourceBytes zstd store bytes mode = some (blob, after)) :
    idMapStep zstd (vacated store next) (.upsert id bytes mode) =
      some (occupied after next id blob) := by
  simp only [idMapStep, IdMaps.upsertDocumentDeferred, vacated, stored, Option.bind_eq_bind,
    Option.bind_some]
  rfl

theorem delete_occupied (zstd : Zstd) (store : SourceStore) (next : Nat) (id : String)
    (blob : SourceBlob) : idMapStep zstd (occupied store next id blob) (.delete id) =
      some (vacated store ((next + 1) % 2 ^ 32)) := by
  have found : (occupied store next id blob).resolveUid id = some next := by
    simp [IdMaps.resolveUid, occupied]
  have unfolded : ¬ next < (occupied store next id blob).dense.docCount :=
    Nat.not_lt_zero next
  simp only [idMapStep, IdMaps.deleteDocumentDeferred, found, if_neg unfolded]
  simp only [occupied, vacated, IdMaps.new, erase_upsert_empty]

/-- As many documents put in and deleted as there are numbers: the numbers have gone round. -/
theorem idMapRun_worn (zstd : Zstd) (n : Nat) (store : SourceStore) (next : Nat)
    (bounded : next < 2 ^ 32) :
    ∃ after, idMapRun zstd (vacated store next)
        (List.replicate n [.upsert "a" [0] .raw, .delete "a"]).flatten =
          some (vacated after ((next + n) % 2 ^ 32)) := by
  induction n generalizing store next with
  | zero => exact ⟨store, by rw [Nat.add_zero, Nat.mod_eq_of_lt bounded]; rfl⟩
  | succ n ih =>
    have stored : storeSourceBytes zstd store [0] .raw = some _ := rfl
    obtain ⟨after, finished⟩ := ih { store with segment := ⟨store.segment.buf ++ [0]⟩ }
      ((next + 1) % 2 ^ 32) (Nat.mod_lt _ (by decide))
    refine ⟨after, ?_⟩
    rw [List.replicate_succ, List.flatten_cons, List.cons_append, List.cons_append, List.nil_append,
      idMapRun, upsert_vacated zstd "a" next stored]
    simp only [Option.bind_eq_bind, Option.bind_some]
    rw [idMapRun, delete_occupied]
    simp only [Option.bind_eq_bind, Option.bind_some]
    rw [finished, Nat.mod_add_mod, Nat.add_assoc, Nat.add_comm 1]

theorem densify_vacated (zstd : Zstd) {store after : SourceStore} (next : Nat)
    (flushed : store.flushPendingBlock zstd = some after) :
    idMapStep zstd (vacated store next) .densify = some (vacated after next) := by
  simp only [idMapStep, IdMaps.densify, vacated, flushed, Option.bind_eq_bind, Option.bind_some]
  rfl

theorem idMapRun_sealed (n : Nat) (store : SourceStore) (next : Nat) (closed : store.pending = [])
    (blocks : store.blocks.length + n ≤ sourceBlockIdMax + 1)
    (file : store.segment.buf.length + 10 * n ≤ packedOffsetMax) :
    ∃ after number, idMapRun storedFrame (vacated store next)
        (List.replicate n [.upsert "a" [0] .zstdBlock, .delete "a", .densify]).flatten =
          some (vacated after number) ∧
      after.blocks.length = store.blocks.length + n := by
  induction n generalizing store next with
  | zero => exact ⟨store, next, rfl, rfl⟩
  | succ n ih =>
    obtain ⟨⟨buf⟩, directory, pending, epoch⟩ := store
    obtain rfl : pending = [] := closed
    dsimp only at blocks file
    have located : packBlockLocator directory.length 0 =
        some (directory.length <<< sourceBlockIntraBits ||| 0) := by
      rw [packBlockLocator, if_pos ⟨by omega, Nat.zero_le _⟩]
    have stored : storeSourceBytes storedFrame ⟨⟨buf⟩, directory, [], epoch⟩ [0] .zstdBlock =
        some (.onDisk (directory.length <<< sourceBlockIntraBits ||| 0) 1 sourceCodecBlock,
          ⟨⟨buf⟩, directory, [0], epoch⟩) := by
      simp only [storeSourceBytes, SourceStore.appendBlockDoc, List.length_nil, Nat.zero_mod, located,
        Option.bind_eq_bind, Option.bind_some, List.nil_append,
        if_neg (by decide : ¬ [(0 : UInt8)].length ≥ sourceBlockTargetBytes)]
      rfl
    have small : buf.length ≤ packedOffsetMax ∧ (storedFrame.compress [0]).length % 2 ^ 32 ≤ blockDirClenMax := by
      refine ⟨?_, by decide⟩
      omega
    have entry : packBlockDirEntry buf.length ((storedFrame.compress [0]).length % 2 ^ 32) =
        some (10 <<< packedOffsetBits ||| buf.length) := if_pos small
    have flushed : SourceStore.flushPendingBlock storedFrame ⟨⟨buf⟩, directory, [0], epoch⟩ =
        some ⟨⟨buf ++ storedFrame.compress [0]⟩, directory ++ [10 <<< packedOffsetBits ||| buf.length], [],
          epoch⟩ := by
      simp only [SourceStore.flushPendingBlock, SourceSegment.append, entry]
      rfl
    obtain ⟨after, number, finished, count⟩ := ih
      ⟨⟨buf ++ storedFrame.compress [0]⟩, directory ++ [10 <<< packedOffsetBits ||| buf.length], [], epoch⟩
      ((next + 1) % 2 ^ 32) rfl (by simp only [List.length_append, List.length_singleton]; omega)
      (by
        have frame : (storedFrame.compress [0]).length = 10 := by decide
        simp only [List.length_append, frame]
        omega)
    refine ⟨after, number, ?_, ?_⟩
    · rw [List.replicate_succ, List.flatten_cons, List.cons_append, List.cons_append, List.cons_append,
        List.nil_append, idMapRun, upsert_vacated storedFrame "a" next stored]
      simp only [Option.bind_eq_bind, Option.bind_some]
      rw [idMapRun, delete_occupied]
      simp only [Option.bind_eq_bind, Option.bind_some]
      rw [idMapRun, densify_vacated storedFrame _ flushed]
      exact finished
    · rw [count]
      simp only [List.length_append, List.length_singleton]
      omega

def wornIdMapActions : List IdMapAction :=
  (List.replicate (2 ^ 32) [.upsert "a" [0] .raw, .delete "a"]).flatten ++ [.upsert "b" [0] .raw]

def sealedIdMapActions : List IdMapAction :=
  (List.replicate (2 ^ 26) [.upsert "a" [0] .zstdBlock, .delete "a", .densify]).flatten ++
    [.upsert "b" [0] .zstdBlock]

/-- After 2^26 sealed blocks a document in block mode is refused by an assertion, and after 2^32
documents the first number, deleted long ago, is handed out again. -/
theorem id_maps_past_limits :
    idMapRun storedFrame (.new 0) sealedIdMapActions = none ∧
      (∃ before, idMapRun storedFrame (.new 0) (wornIdMapActions.take 2) = some before ∧
        0 < before.nextDocId ∧ before.uidForDocId 0 = none) ∧
      ∃ last, idMapRun storedFrame (.new 0) wornIdMapActions = some last ∧
        last.uidForDocId 0 = some "b" := by
  refine ⟨?_, ?_, ?_⟩
  · obtain ⟨after, number, finished, count⟩ := idMapRun_sealed (2 ^ 26) (.default 0) 0 rfl
      (by decide) (by decide)
    have refused : packBlockLocator after.blocks.length (after.pending.length % 2 ^ 32) = none := by
      rw [packBlockLocator, if_neg]
      rintro ⟨few, _⟩
      rw [count] at few
      revert few
      decide
    have panics : idMapStep storedFrame (vacated after number) (.upsert "b" [0] .zstdBlock) = none := by
      simp only [idMapStep, IdMaps.upsertDocumentDeferred, vacated, storeSourceBytes,
        SourceStore.appendBlockDoc, refused]
      rfl
    have started : idMapRun storedFrame (.new 0) _ = some (vacated after number) := finished
    rw [sealedIdMapActions, idMapRun_append, started, Option.bind_some, idMapRun, panics]
    rfl
  · have first : wornIdMapActions.take 2 = [.upsert "a" [0] .raw, .delete "a"] := by
      rw [wornIdMapActions, (by decide : 2 ^ 32 = 4294967295 + 1), List.replicate_succ]
      rfl
    rw [first]
    exact ⟨_, rfl, by decide, by decide⟩
  · obtain ⟨after, finished⟩ := idMapRun_worn storedFrame (2 ^ 32) (.default 0) 0 (by decide)
    rw [Nat.zero_add, Nat.mod_self] at finished
    have started : idMapRun storedFrame (.new 0) _ = some (vacated after 0) := finished
    have stored : storeSourceBytes storedFrame after [0] .raw = some _ := rfl
    have revived := upsert_vacated storedFrame "b" 0 stored
    rw [wornIdMapActions, idMapRun_append, started, Option.bind_some, idMapRun, revived]
    exact ⟨_, rfl, rfl⟩

end Limits

end Surch.Api
