import Surch.Api.RefreshLimits

/-! Runs of writes and refreshes, whatever the sizes of the sources. The maps are sound but for the
widths of the slots, which a run keeps track of by the documents whose latest source is too wide. -/
namespace Surch.Api
open Surch.Lib Surch.Index

section Shadows

variable {zstd : Zstd} {maps next : IdMaps}

/- The maps with a small source in place of every one that was written since the last densify. -/
def IdMaps.shadow (maps : IdMaps) : IdMaps :=
  { maps with documentsDirty := maps.documentsDirty.map fun _ => .onDisk 0 1 0 }

/- What holds of the maps whatever the sizes of the sources. -/
structure Written (maps : IdMaps) : Prop where
  layered : Layered maps.shadow
  credible : ∀ docId blob, maps.documentsDirty.get? docId = some blob → Plausible blob
  pending : maps.sourceStore.pending.length < sourceBlockTargetBytes

theorem Layered.shadow (layered : Layered maps) : Layered maps.shadow where
  dense := layered.dense
  counted := layered.counted
  bounded := layered.bounded
  mirrored := layered.mirrored
  fresh := layered.fresh
  shadowed := layered.shadowed
  written docId uid found := by
    simpa [IdMaps.shadow] using layered.written docId uid found
  owned docId blob found := by
    obtain ⟨old, dirty, rfl⟩ := Option.map_eq_some_iff.mp
      ((SortedMap.get?_map _ _ _).symm.trans found)
    exact ⟨⟨by decide, by decide, by decide, by decide⟩, (layered.owned docId old dirty).2⟩
  tombstones := layered.tombstones

theorem Written.sound (written : Written maps) (fits : maps.SlotsFit) : Layered maps where
  dense := written.layered.dense
  counted := written.layered.counted
  bounded := written.layered.bounded
  mirrored := written.layered.mirrored
  fresh := written.layered.fresh
  shadowed := written.layered.shadowed
  written docId uid found := by
    simpa [IdMaps.shadow] using written.layered.written docId uid found
  owned docId blob found := by
    refine ⟨(packable_iff blob).mpr ⟨written.credible docId blob found, fits docId blob found⟩, ?_⟩
    have dirty : maps.shadow.documentsDirty.get? docId = some (.onDisk 0 1 0) := by
      rw [IdMaps.shadow, SortedMap.get?_map, found, Option.map_some]
    exact (written.layered.owned docId _ dirty).2
  tombstones := written.layered.tombstones

theorem new_written (epoch : Nat) : Written (.new epoch) where
  layered := (new_sound ⟨id, fun _ _ => none⟩ epoch).layered.shadow
  credible docId blob found := by simp [IdMaps.new] at found
  pending := (by decide : 0 < sourceBlockTargetBytes)

theorem isSome_of_mapM {α β : Type} {f : α → Option β} {items : List α}
    (all : (items.mapM f).isSome = true) : ∀ x ∈ items, (f x).isSome = true := by
  induction items with
  | nil => simp
  | cons head rest ih =>
    rw [List.mapM_cons] at all
    cases here : f head with
    | none =>
      rw [here] at all
      cases all
    | some y =>
      cases later : rest.mapM f with
      | none =>
        rw [here, later] at all
        cases all
      | some ys =>
        intro x member
        rcases List.mem_cons.mp member with rfl | member
        · rw [here]
          rfl
        · exact ih (by rw [later]; rfl) x member

theorem Written.dirty (written : Written maps) {docId : Nat} {blob : SourceBlob}
    (found : maps.documentsDirty.get? docId = some blob) :
    docId < maps.nextDocId ∧ maps.liveSlot docId = some (blob, (maps.uidForDocId docId).getD "") := by
  have dirty : maps.shadow.documentsDirty.get? docId = some (.onDisk 0 1 0) := by
    rw [IdMaps.shadow, SortedMap.get?_map, found, Option.map_some]
  have named := (written.layered.owned docId _ dirty).2
  obtain ⟨uid, known⟩ := Option.isSome_iff_exists.mp named
  have alive : docId ∉ maps.deletedSinceDense :=
    ((maps.uidForDocId_eq_some_iff docId uid).mp known).1
  have stored : maps.blobForDocId docId = some blob := by
    rw [IdMaps.blobForDocId, if_neg alive, found, Option.some_or]
  have same : maps.uidForDocId docId = some uid := known
  refine ⟨written.layered.uid_inside known, ?_⟩
  rw [liveSlot_eq, stored, same]
  rfl

theorem slots_of_densifyFull (written : Written maps) (folded : maps.densifyFull.isSome = true) :
    maps.SlotsFit := by
  intro docId blob found
  obtain ⟨inside, live⟩ := written.dirty found
  have packed : ((List.range maps.nextDocId).mapM fun docId =>
      packSlot ((maps.liveSlot docId).map Prod.fst)).isSome = true := by
    unfold IdMaps.densifyFull at folded
    cases documents : (List.range maps.nextDocId).mapM fun docId =>
        packSlot ((maps.liveSlot docId).map Prod.fst) with
    | none =>
      simp only [documents] at folded
      cases folded
    | some slots => rfl
  have here := isSome_of_mapM packed docId (List.mem_range.mpr inside)
  rw [live] at here
  exact slotFits_of_pack here

theorem slots_of_densifyAppendOnly (written : Written maps)
    (untouched : ∀ docId blob, maps.documentsDirty.get? docId = some blob →
      maps.dense.docCount ≤ docId)
    (folded : (maps.densifyAppendOnly maps.dense.docCount).isSome = true) : maps.SlotsFit := by
  intro docId blob found
  have packed : ((List.range' maps.dense.docCount (maps.nextDocId - maps.dense.docCount)).mapM
      fun docId => packSlot (maps.documentsDirty.get? docId)).isSome = true := by
    unfold IdMaps.densifyAppendOnly at folded
    cases documents : (List.range' maps.dense.docCount (maps.nextDocId - maps.dense.docCount)).mapM
        fun docId => packSlot (maps.documentsDirty.get? docId) with
    | none =>
      simp only [documents] at folded
      cases folded
    | some slots => rfl
  have inside := (written.dirty found).1
  have low := untouched docId blob found
  have here := isSome_of_mapM packed docId (List.mem_range'_1.mpr (by omega))
  rw [found] at here
  exact slotFits_of_pack here

theorem untouched_of_not_any
    (clean : ¬ (maps.documentsDirty.keys.any fun docId => docId < maps.dense.docCount) = true) :
    ∀ docId blob, maps.documentsDirty.get? docId = some blob → maps.dense.docCount ≤ docId := by
  intro docId blob found
  by_contra low
  apply clean
  rw [List.any_eq_true]
  exact ⟨docId, (maps.documentsDirty.mem_keys_iff docId).mpr ⟨blob, found⟩, by simpa using low⟩

/-- A densify returns exactly when it can fold, and leaves nothing to fold. -/
theorem densify_isSome_iff (written : Written maps) (small : maps.liveUidBytes < 2 ^ 32) :
    (maps.densify zstd).isSome = true ↔ maps.sourceStore.Seals zstd ∧ maps.SlotsFit := by
  unfold IdMaps.densify IdMaps.SlotsFit
  rw [← flushPendingBlock_isSome_iff]
  cases flushed : maps.sourceStore.flushPendingBlock zstd with
  | none => simp
  | some store =>
    have short : store.pending.length < sourceBlockTargetBytes := by
      rw [flushPendingBlock_pending flushed]
      decide
    have after : Written { maps with sourceStore := store } :=
      ⟨written.layered.with_store store, written.credible, short⟩
    simp only [Option.bind_eq_bind, Option.bind_some, Option.isSome_some, true_and]
    split
    · rename_i nothing
      refine iff_of_true rfl ?_
      intro docId blob found
      have empty : maps.documentsDirty.entries = [] := by simpa using nothing.2.2
      rw [SortedMap.get?, empty] at found
      cases found
    · split
      · constructor
        · intro folded
          exact @slots_of_densifyFull { maps with sourceStore := store } after folded
        · intro fits
          obtain ⟨last, folded, _⟩ := (after.sound fits).densifyFull small
          rw [folded]
          rfl
      · rename_i free
        rw [not_or, not_not] at free
        have untouched := untouched_of_not_any free.2
        constructor
        · intro folded
          exact @slots_of_densifyAppendOnly { maps with sourceStore := store } after untouched folded
        · intro fits
          obtain ⟨last, folded, _⟩ := (after.sound fits).densifyAppendOnly small free.1 untouched
          rw [folded]
          rfl

theorem densify_clean (folded : maps.densify zstd = some next) (docId : Nat) :
    next.documentsDirty.get? docId = none := by
  obtain ⟨store, _, rest⟩ := Option.bind_eq_some_iff.mp folded
  dsimp only at rest
  split at rest
  · rename_i nothing
    cases rest
    have empty : maps.documentsDirty.entries = [] := by simpa using nothing.2.2
    rw [SortedMap.get?, empty]
    rfl
  · split at rest
    · obtain ⟨_, _, rest⟩ := Option.bind_eq_some_iff.mp rest
      obtain ⟨_, _, rest⟩ := Option.bind_eq_some_iff.mp rest
      cases rest
      rfl
    · obtain ⟨_, _, rest⟩ := Option.bind_eq_some_iff.mp rest
      obtain ⟨_, _, rest⟩ := Option.bind_eq_some_iff.mp rest
      cases rest
      rfl

theorem densify_written (written : Written maps) (small : maps.liveUidBytes < 2 ^ 32)
    (folded : maps.densify zstd = some next) : Written next := by
  have fits := ((densify_isSome_iff written small).mp (by rw [folded]; rfl)).2
  have clean : ∀ docId blob, next.documentsDirty.get? docId = some blob → Plausible blob := by
    intro docId blob found
    rw [densify_clean folded] at found
    cases found
  obtain ⟨store, flushed, rest⟩ := Option.bind_eq_some_iff.mp folded
  have short : store.pending.length < sourceBlockTargetBytes := by
    rw [flushPendingBlock_pending flushed]
    decide
  have sound := (written.sound fits).with_store store
  dsimp only at rest
  split at rest
  · cases rest
    exact ⟨sound.shadow, clean, short⟩
  · split at rest
    · obtain ⟨last, done, layered, stores, _⟩ := sound.densifyFull small
      obtain rfl : last = next := Option.some.inj (done.symm.trans rest)
      exact ⟨layered.shadow, clean, by rw [stores]; exact short⟩
    · rename_i free
      rw [not_or, not_not] at free
      obtain ⟨last, done, layered, stores, _⟩ :=
        sound.densifyAppendOnly small free.1 (untouched_of_not_any free.2)
      obtain rfl : last = next := Option.some.inj (done.symm.trans rest)
      exact ⟨layered.shadow, clean, by rw [stores]; exact short⟩

def Widens (maps : IdMaps) (wide : Finset String) : Prop :=
  ∀ id, id ∈ wide ↔ ∃ docId blob, maps.resolveUid id = some docId ∧
    maps.documentsDirty.get? docId = some blob ∧ ¬ SlotFits blob

theorem Widens.slotsFit_iff {wide : Finset String} (widens : Widens maps wide)
    (written : Written maps) : maps.SlotsFit ↔ wide = ∅ := by
  constructor
  · intro fits
    rw [Finset.eq_empty_iff_forall_notMem]
    intro id member
    obtain ⟨docId, blob, _, found, unfit⟩ := (widens id).mp member
    exact unfit (fits docId blob found)
  · rintro rfl docId blob found
    by_contra unfit
    have dirty : maps.shadow.documentsDirty.get? docId = some (.onDisk 0 1 0) := by
      rw [IdMaps.shadow, SortedMap.get?_map, found, Option.map_some]
    obtain ⟨id, named⟩ := Option.isSome_iff_exists.mp (written.layered.owned docId _ dirty).2
    have resolved : maps.resolveUid id = some docId :=
      (written.layered.resolveUid_iff id docId).mpr named
    exact absurd ((widens id).mpr ⟨docId, blob, resolved, found, unfit⟩) (Finset.notMem_empty id)

theorem idMapStep_isSome_iff (written : Written maps) {wide : Finset String}
    (widens : Widens maps wide) {action : IdMapAction} (accepted : action.Accepted maps) :
    (idMapStep zstd maps action).isSome = true ↔ action.Packs zstd maps wide := by
  cases action with
  | upsert id serialized mode =>
    have stored := @storeSourceBytes_isSome_iff zstd _ written.pending serialized mode
    rw [IdMapAction.Packs, ← stored]
    simp only [idMapStep, IdMaps.upsertDocumentDeferred]
    cases storeSourceBytes zstd maps.sourceStore serialized mode with
    | none => rfl
    | some result =>
      refine iff_of_true ?_ rfl
      simp only [Option.bind_eq_bind, Option.bind_some]
      split <;> rfl
  | delete id => exact iff_of_true rfl trivial
  | densify =>
    rw [IdMapAction.Packs, ← widens.slotsFit_iff written]
    exact densify_isSome_iff written accepted
  | maybeDensifyByBudget budget =>
    simp only [idMapStep, IdMaps.maybeDensifyByBudget, IdMapAction.Packs]
    cases budget with
    | none => simp
    | some budget =>
      dsimp only
      split
      · rename_i small
        refine iff_of_true rfl ?_
        rintro _ ⟨⟩ reached
        omega
      · rename_i reached
        rw [densify_isSome_iff written accepted, widens.slotsFit_iff written]
        constructor
        · rintro folds _ ⟨⟩ _
          exact folds
        · intro folds
          exact folds budget rfl (not_lt.mp reached)

theorem upsert_written (lossless : zstd.Lossless) (written : Written maps) {id : String}
    {serialized : List UInt8} {mode : SourceWriteMode}
    (accepted : (IdMapAction.upsert id serialized mode).Accepted maps)
    (stepped : maps.upsertDocumentDeferred zstd mode id serialized = some next) : Written next := by
  obtain ⟨named, nonempty, short, left⟩ := accepted
  obtain ⟨⟨blob, store⟩, stored, rest⟩ := Option.bind_eq_some_iff.mp stepped
  have credible := (slotFits_stored_iff lossless nonempty short stored).1
  have pending := storeSourceBytes_pending written.pending stored
  have token : Packable (.onDisk 0 1 0) := ⟨by decide, by decide, by decide, by decide⟩
  have layered := written.layered.with_store store
  dsimp only at rest
  have resolved : IdMaps.resolveUid { maps with sourceStore := store } id =
      { maps.shadow with sourceStore := store }.resolveUid id := rfl
  have spread : ∀ docId, ∀ given blob', (maps.documentsDirty.upsert docId fun _ => blob).get? given =
      some blob' → Plausible blob' := by
    intro docId given blob' found
    rw [SortedMap.get?_upsert] at found
    split at found
    · cases found
      exact credible
    · exact written.credible given blob' found
  rw [resolved] at rest
  cases known : { maps.shadow with sourceStore := store }.resolveUid id with
  | some docId =>
    rw [known] at rest
    cases rest
    refine ⟨?_, spread docId, pending⟩
    have updated := (layered.update known token).1
    rw [IdMaps.shadow, SortedMap.map_upsert]
    exact updated
  | none =>
    rw [known] at rest
    cases rest
    refine ⟨?_, spread maps.nextDocId, pending⟩
    have inserted := (layered.insertion named known token (left known)).1
    rw [IdMaps.shadow, SortedMap.map_upsert]
    exact inserted

theorem delete_written (written : Written maps) (id : String) :
    Written (maps.deleteDocumentDeferred id).2 := by
  have resolved : maps.resolveUid id = maps.shadow.resolveUid id := rfl
  cases known : maps.resolveUid id with
  | none =>
    simp only [IdMaps.deleteDocumentDeferred, known]
    exact written
  | some docId =>
    have deleted := (written.layered.deletion (resolved.symm.trans known)).1
    rw [IdMaps.deleteDocumentDeferred, ← resolved, known] at deleted
    simp only [IdMaps.deleteDocumentDeferred, known]
    refine ⟨?_, ?_, written.pending⟩
    · rw [IdMaps.shadow, SortedMap.map_erase]
      exact deleted
    · intro given blob found
      rw [SortedMap.get?_erase] at found
      split at found
      · cases found
      · exact written.credible given blob found

theorem idMapStep_written (lossless : zstd.Lossless) (written : Written maps) {action : IdMapAction}
    (accepted : action.Accepted maps) (stepped : idMapStep zstd maps action = some next) :
    Written next := by
  cases action with
  | upsert id serialized mode => exact upsert_written lossless written accepted stepped
  | delete id =>
    cases stepped
    exact delete_written written id
  | densify => exact densify_written written accepted stepped
  | maybeDensifyByBudget budget =>
    simp only [idMapStep, IdMaps.maybeDensifyByBudget] at stepped
    split at stepped
    · cases stepped
      exact written
    · split at stepped
      · cases stepped
        exact written
      · exact densify_written written accepted stepped

theorem densify_widens (written : Written maps) {wide : Finset String} (widens : Widens maps wide)
    (small : maps.liveUidBytes < 2 ^ 32) (folded : maps.densify zstd = some next) :
    Widens next wide := by
  have fits := ((densify_isSome_iff written small).mp (by rw [folded]; rfl)).2
  rw [(widens.slotsFit_iff written).mp fits]
  intro id
  simp [densify_clean folded]

/-- An operation that returns leaves as wide the documents whose latest source is. -/
theorem idMapStep_widens (lossless : zstd.Lossless) (written : Written maps) {wide : Finset String}
    (widens : Widens maps wide) {action : IdMapAction} (accepted : action.Accepted maps)
    (stepped : idMapStep zstd maps action = some next) :
    Widens next (wideAfter zstd maps wide action) := by
  have views := written.layered.resolveUid_iff
  cases action with
  | upsert id serialized mode =>
    obtain ⟨_, nonempty, short, _⟩ := accepted
    obtain ⟨⟨blob, store⟩, stored, rest⟩ := Option.bind_eq_some_iff.mp stepped
    have fits := (slotFits_stored_iff lossless nonempty short stored).2
    -- the document of `id` after the write, and what the write changes
    obtain ⟨docId, mine, others, dirty⟩ : ∃ docId, next.resolveUid id = some docId ∧
        (∀ other, other ≠ id → next.resolveUid other = maps.resolveUid other ∧
          maps.resolveUid other ≠ some docId) ∧
        next.documentsDirty = maps.documentsDirty.upsert docId fun _ => blob := by
      dsimp only at rest
      split at rest
      · rename_i docId resolved
        cases rest
        refine ⟨docId, resolved, ?_, rfl⟩
        intro other apart
        refine ⟨rfl, fun same => apart ?_⟩
        have first := (views other docId).mp same
        rw [(views id docId).mp resolved] at first
        exact (Option.some.inj first).symm
      · cases rest
        refine ⟨maps.nextDocId, by simp [IdMaps.resolveUid], ?_, rfl⟩
        intro other apart
        refine ⟨by simp [IdMaps.resolveUid, apart], fun same => ?_⟩
        exact absurd (written.layered.uid_inside ((views other _).mp same)) (lt_irrefl _)
    have mem : ∀ other, other ∈ wideAfter zstd maps wide (.upsert id serialized mode) ↔
        if other = id then ¬ SlotFits blob else other ∈ wide := by
      intro other
      rw [wideAfter, fits]
      by_cases slot : SourceFits zstd maps.sourceStore serialized mode
      · by_cases here : other = id <;> simp [slot, here]
      · by_cases here : other = id <;> simp [slot, here]
    intro other
    rw [mem, dirty]
    by_cases here : other = id
    · subst here
      rw [if_pos rfl, mine]
      simp
    · obtain ⟨same, elsewhere⟩ := others other here
      rw [if_neg here, same, widens other]
      constructor
      · rintro ⟨d, b, resolved, found, unfit⟩
        have apart : d ≠ docId := by
          rintro rfl
          exact elsewhere resolved
        exact ⟨d, b, resolved, by rw [SortedMap.get?_upsert, if_neg apart]; exact found, unfit⟩
      · rintro ⟨d, b, resolved, found, unfit⟩
        have apart : d ≠ docId := by
          rintro rfl
          exact elsewhere resolved
        rw [SortedMap.get?_upsert, if_neg apart] at found
        exact ⟨d, b, resolved, found, unfit⟩
  | delete id =>
    cases stepped
    intro other
    rw [wideAfter, Finset.mem_erase, widens other]
    cases known : maps.resolveUid id with
    | none =>
      simp only [IdMaps.deleteDocumentDeferred, known]
      refine and_iff_right_of_imp ?_
      rintro ⟨d, b, resolved, _⟩ rfl
      rw [known] at resolved
      cases resolved
    | some docId =>
      obtain ⟨after, named, _⟩ := written.layered.deletion (show maps.shadow.resolveUid id = _ from known)
      have resolves : ∀ uid d, (maps.deleteDocumentDeferred id).2.resolveUid uid = some d ↔
          d ≠ docId ∧ maps.resolveUid uid = some d := by
        intro uid d
        have shape : (maps.deleteDocumentDeferred id).2.resolveUid uid =
            (maps.shadow.deleteDocumentDeferred id).2.resolveUid uid := by
          have same : maps.shadow.resolveUid id = some docId := known
          simp only [IdMaps.deleteDocumentDeferred, known, same]
          rfl
        have before : maps.resolveUid uid = some d ↔ maps.shadow.uidForDocId d = some uid := views uid d
        rw [shape, after.resolveUid_iff, named, before]
        by_cases gone : d = docId <;> simp [gone]
      have dirty : (maps.deleteDocumentDeferred id).2.documentsDirty =
          maps.documentsDirty.erase docId := by
        simp only [IdMaps.deleteDocumentDeferred, known]
      simp only [resolves, dirty, SortedMap.get?_erase]
      constructor
      · rintro ⟨apart, d, b, resolved, found, unfit⟩
        have elsewhere : d ≠ docId := by
          rintro rfl
          have first := (views other d).mp resolved
          rw [(views id d).mp known] at first
          exact apart (Option.some.inj first).symm
        exact ⟨d, b, ⟨elsewhere, resolved⟩, by rw [if_neg elsewhere]; exact found, unfit⟩
      · rintro ⟨d, b, ⟨elsewhere, resolved⟩, found, unfit⟩
        rw [if_neg elsewhere] at found
        refine ⟨?_, d, b, resolved, found, unfit⟩
        rintro rfl
        rw [known] at resolved
        exact elsewhere (Option.some.inj resolved).symm
  | densify => exact densify_widens written widens accepted stepped
  | maybeDensifyByBudget budget =>
    simp only [idMapStep, IdMaps.maybeDensifyByBudget] at stepped
    split at stepped
    · cases stepped
      exact widens
    · split at stepped
      · cases stepped
        exact widens
      · exact densify_widens written widens accepted stepped

/-- A run of accepted writes ends exactly when every operation packs. -/
theorem idMapOutcomes_ok_iff (lossless : zstd.Lossless) (actions : List IdMapAction)
    (written : Written maps) {wide : Finset String} (widens : Widens maps wide)
    (accepted : RunAccepted zstd maps actions) :
    (∃ last, idMapOutcomes zstd maps actions = .ok last) ↔ RunPacks zstd maps wide actions := by
  induction actions generalizing maps wide with
  | nil => exact iff_of_true ⟨maps, rfl⟩ trivial
  | cons action rest ih =>
    have first := @idMapStep_isSome_iff zstd _ written _ widens _ accepted.1
    rw [RunPacks, ← first, idMapOutcomes]
    cases stepped : idMapStep zstd maps action with
    | none =>
      refine iff_of_false ?_ (by simp)
      rintro ⟨last, finished⟩
      split at finished
      · rename_i next ended
        rw [(idMapOutcome_ok_iff action next).mp ended] at stepped
        cases stepped
      · cases finished
    | some next =>
      rw [(idMapOutcome_ok_iff action next).mpr stepped]
      dsimp only
      rw [ih (idMapStep_written lossless written accepted.1 stepped)
        (idMapStep_widens lossless written widens accepted.1 stepped) (accepted.2 next stepped)]
      simp

theorem new_widens (epoch : Nat) : Widens (.new epoch) ∅ := by
  intro id
  simp [IdMaps.new]

/-- From a new index, a run of accepted writes ends exactly when a densify never meets a document whose
latest source is stored with 4 MiB or more, or past 1 TiB, and every block gets its entry. -/
theorem refresh_never_fails_iff (zstd : Zstd) (lossless : zstd.Lossless) (epoch : Nat)
    (actions : List IdMapAction) (accepted : RunAccepted zstd (.new epoch) actions) :
    (∃ last, idMapOutcomes zstd (.new epoch) actions = .ok last) ↔
      RunPacks zstd (.new epoch) ∅ actions :=
  idMapOutcomes_ok_iff lossless actions (new_written epoch) (new_widens epoch) accepted

end Shadows

section Left

variable {zstd : Zstd} {maps : IdMaps}

/-- Where only new documents were written, one that is too wide makes the densify fail behind the
emptied tables of all documents. -/
theorem densifyOutcome_emptied (closed : maps.sourceStore.pending = [])
    (alive : maps.deletedSinceDense = ∅)
    (untouched : ∀ docId blob, maps.documentsDirty.get? docId = some blob →
      maps.dense.docCount ≤ docId)
    {docId : Nat} {blob : SourceBlob} (found : maps.documentsDirty.get? docId = some blob)
    (inside : docId < maps.nextDocId) (wide : ¬ SlotFits blob) :
    maps.densifyOutcome zstd = .error maps.dense.withoutTables := by
  have flushed : maps.sourceStore.flushPendingBlock zstd = some maps.sourceStore := by
    rw [SourceStore.flushPendingBlock, if_pos (by simp [closed])]
  have unpacked : (List.range' maps.dense.docCount (maps.nextDocId - maps.dense.docCount)).mapM
      (fun docId => packSlot (maps.documentsDirty.get? docId)) = none := by
    rw [← Option.not_isSome_iff_eq_none]
    intro packed
    have low := untouched docId blob found
    have here := isSome_of_mapM packed docId (List.mem_range'_1.mpr (by omega))
    rw [found] at here
    exact wide (slotFits_of_pack here)
  have written : ¬ maps.documentsDirty.entries.isEmpty = true := by
    intro nothing
    rw [List.isEmpty_iff] at nothing
    rw [SortedMap.get?, nothing] at found
    cases found
  have clean : ¬ (maps.documentsDirty.keys.any fun docId => docId < maps.dense.docCount) = true := by
    intro touched
    obtain ⟨d, member, low⟩ := List.any_eq_true.mp touched
    obtain ⟨b, at_d⟩ := (maps.documentsDirty.mem_keys_iff d).mp member
    have := untouched d b at_d
    simp only [decide_eq_true_eq] at low
    omega
  have appended : maps.densifyAppendOnlyOutcome maps.dense.docCount =
      .error maps.dense.withoutTables := by
    unfold IdMaps.densifyAppendOnlyOutcome IdMaps.densifyAppendOnly
    simp only [unpacked]
    rfl
  unfold IdMaps.densifyOutcome
  rw [flushed]
  dsimp only
  rw [if_neg (fun nothing => written nothing.2.2), if_neg]
  · exact appended
  · rintro (gone | touched)
    · exact gone alive
    · exact clean touched

theorem idMapOutcomes_append (maps : IdMaps) (first second : List IdMapAction) :
    idMapOutcomes zstd maps (first ++ second) =
      (idMapOutcomes zstd maps first).bind fun next => idMapOutcomes zstd next second := by
  induction first generalizing maps with
  | nil => rfl
  | cons action rest ih =>
    rw [List.cons_append, idMapOutcomes, idMapOutcomes]
    cases idMapOutcome zstd maps action with
    | error left => rfl
    | ok next => exact ih next

theorem RunAccepted.append {first second : List IdMapAction} (accepted : RunAccepted zstd maps first)
    (later : ∀ next, idMapOutcomes zstd maps first = .ok next → RunAccepted zstd next second) :
    RunAccepted zstd maps (first ++ second) := by
  induction first generalizing maps with
  | nil => exact later maps rfl
  | cons action rest ih =>
    refine ⟨accepted.1, fun next stepped => ih (accepted.2 next stepped) fun last ended => ?_⟩
    apply later last
    rw [idMapOutcomes, (idMapOutcome_ok_iff action next).mpr stepped]
    exact ended

end Left

section Sample

instance (zstd : Zstd) (store : SourceStore) : Decidable (store.Seals zstd) :=
  inferInstanceAs (Decidable (_ = _ ∨ _ ≤ _ ∧ _ ≤ _))

instance (zstd : Zstd) (maps : IdMaps) (wide : Finset String) :
    (action : IdMapAction) → Decidable (action.Packs zstd maps wide)
  | .upsert _ _ _ => inferInstanceAs (Decidable (_ = _ → _ ≤ _ ∧ (_ ≤ _ → SourceStore.Seals _ _)))
  | .delete _ => .isTrue trivial
  | .densify => inferInstanceAs (Decidable (SourceStore.Seals _ _ ∧ _ = _))
  | .maybeDensifyByBudget _ =>
    inferInstanceAs (Decidable (∀ _ ∈ _, _ ≤ _ → SourceStore.Seals _ _ ∧ _ = _))

instance (maps : IdMaps) : (action : IdMapAction) → Decidable (action.Accepted maps)
  | .upsert _ _ _ => inferInstanceAs (Decidable (_ ≠ _ ∧ _ ≠ _ ∧ _ < _ ∧ (_ = _ → _ < _)))
  | .delete _ => .isTrue trivial
  | .densify => inferInstanceAs (Decidable (_ < _))
  | .maybeDensifyByBudget _ => inferInstanceAs (Decidable (_ < _))

instance runPacksDecidable (zstd : Zstd) : (maps : IdMaps) → (wide : Finset String) →
    (actions : List IdMapAction) → Decidable (RunPacks zstd maps wide actions)
  | _, _, [] => .isTrue trivial
  | maps, wide, action :: rest =>
    have : ∀ next, Decidable (RunPacks zstd next (wideAfter zstd maps wide action) rest) := fun next =>
      runPacksDecidable zstd next (wideAfter zstd maps wide action) rest
    inferInstanceAs (Decidable (action.Packs zstd maps wide ∧
      ∀ next ∈ idMapStep zstd maps action, RunPacks zstd next (wideAfter zstd maps wide action) rest))

instance runAcceptedDecidable (zstd : Zstd) : (maps : IdMaps) → (actions : List IdMapAction) →
    Decidable (RunAccepted zstd maps actions)
  | _, [] => .isTrue trivial
  | maps, action :: rest =>
    have : ∀ next, Decidable (RunAccepted zstd next rest) := fun next =>
      runAcceptedDecidable zstd next rest
    inferInstanceAs (Decidable (action.Accepted maps ∧
      ∀ next ∈ idMapStep zstd maps action, RunAccepted zstd next rest))

theorem refresh_never_fails_three_modes :
    RunAccepted storedFrame (.new 0) sampleIdMapActions ∧
      ∃ last, idMapOutcomes storedFrame (.new 0) sampleIdMapActions = .ok last := by
  have accepted : RunAccepted storedFrame (.new 0) sampleIdMapActions := by decide +kernel
  have packs : RunPacks storedFrame (.new 0) ∅ sampleIdMapActions := by decide +kernel
  exact ⟨accepted, (refresh_never_fails_iff storedFrame storedFrame_lossless 0 sampleIdMapActions
    accepted).mpr packs⟩

def wideSource : List UInt8 :=
  [0x7b, 0x22, 0x74, 0x22, 0x3a, 0x22] ++ List.replicate (2 ^ 22) 0x78 ++ [0x22, 0x7d]

theorem wideSource_length : wideSource.length = 2 ^ 22 + 8 := by
  rw [wideSource, List.length_append, List.length_append, List.length_replicate]
  rfl

def smallIdMapActions : List IdMapAction := [.upsert "a" [0x7b, 0x7d] .raw, .densify]

def wideIdMapActions : List IdMapAction :=
  smallIdMapActions ++ [.upsert "b" wideSource .raw, .densify]

def IdMaps.withDocument (maps : IdMaps) (id : String) (serialized : List UInt8) : IdMaps :=
  { maps with
    sourceStore := { maps.sourceStore with segment := ⟨maps.sourceStore.segment.buf ++ serialized⟩ }
    nextDocId := (maps.nextDocId + 1) % 2 ^ 32
    reverseDirty := maps.reverseDirty.upsert maps.nextDocId fun _ => id
    forwardDirty := maps.forwardDirty.upsert id fun _ => maps.nextDocId
    documentsDirty := maps.documentsDirty.upsert maps.nextDocId fun _ =>
      .onDisk maps.sourceStore.segment.buf.length (serialized.length % 2 ^ 32) sourceCodecRaw
    liveCount := maps.liveCount + 1 }

theorem upsert_withDocument (zstd : Zstd) {maps : IdMaps} {id : String} (serialized : List UInt8)
    (absent : maps.resolveUid id = none) :
    idMapStep zstd maps (.upsert id serialized .raw) = some (maps.withDocument id serialized) := by
  have same : IdMaps.resolveUid { maps with
      sourceStore := { maps.sourceStore with segment := ⟨maps.sourceStore.segment.buf ++ serialized⟩ } }
      id = none := absent
  simp only [idMapStep, IdMaps.upsertDocumentDeferred, storeSourceBytes, SourceSegment.append,
    Option.bind_eq_bind, Option.bind_some, same, IdMaps.withDocument, Option.pure_def]

theorem liveUidBytes_withDocument (maps : IdMaps) (id : String) (first second : List UInt8) :
    (maps.withDocument id first).liveUidBytes = (maps.withDocument id second).liveUidBytes := rfl

/-- The refresh after the wide document fails and leaves the tables of both documents empty. -/
theorem not_refresh_never_fails :
    RunAccepted storedFrame (.new 0) wideIdMapActions ∧
      ∃ left, idMapOutcomes storedFrame (.new 0) wideIdMapActions = .error left ∧
        left.documents = [] ∧ left.reverseUids = [] := by
  have accepted : RunAccepted storedFrame (.new 0) smallIdMapActions := by decide +kernel
  have evaluated : (idMapOutcomes storedFrame (.new 0) smallIdMapActions).toOption.map
      (fun folded => (folded.resolveUid "b", folded.nextDocId, folded.dense.docCount,
        decide (folded.sourceStore.pending = [] ∧ folded.documentsDirty.keys = [] ∧
          folded.deletedSinceDense = ∅), (folded.withDocument "b" []).liveUidBytes)) =
      some (none, 1, 1, true, 2) := by decide +kernel
  cases ended : idMapOutcomes storedFrame (.new 0) smallIdMapActions with
  | error left =>
    rw [ended] at evaluated
    cases evaluated
  | ok folded =>
    rw [ended] at evaluated
    simp only [Except.toOption, Option.map_some, Option.some.injEq, Prod.mk.injEq,
      decide_eq_true_eq] at evaluated
    obtain ⟨absent, number, count, ⟨closed, clean, alive⟩, uidBytes⟩ := evaluated
    have length := wideSource_length
    have stepped := upsert_withDocument storedFrame wideSource absent
    have written := (idMapOutcome_ok_iff (.upsert "b" wideSource .raw) _).mpr stepped
    have last : (folded.withDocument "b" wideSource).densifyOutcome storedFrame =
        .error folded.dense.withoutTables := by
      refine densifyOutcome_emptied closed alive ?_
        (show (folded.documentsDirty.upsert folded.nextDocId fun _ => _).get? folded.nextDocId =
          some _ by rw [SortedMap.get?_upsert, if_pos rfl])
        ?_ ?_
      · intro docId blob found
        have member := (SortedMap.mem_keys_iff _ docId).mpr ⟨blob, found⟩
        rw [IdMaps.withDocument, SortedMap.mem_keys_upsert, clean, number] at member
        rcases member with rfl | old
        · exact count.le
        · cases old
      · rw [IdMaps.withDocument, number]
        exact (by decide : 1 < (1 + 1) % 2 ^ 32)
      · rintro ⟨narrow, -⟩
        unfold packedLengthMax packedLengthBits at narrow
        omega
    refine ⟨accepted.append ?_, folded.dense.withoutTables, ?_, rfl, rfl⟩
    · intro next same
      rw [ended] at same
      cases same
      refine ⟨⟨by decide, ?_, by omega, fun _ => by omega⟩, ?_⟩
      · rw [← List.length_pos_iff]
        omega
      · intro next after
        rw [stepped] at after
        cases after
        refine ⟨?_, fun _ _ => trivial⟩
        rw [IdMapAction.Accepted, liveUidBytes_withDocument folded "b" wideSource [], uidBytes]
        decide
    · rw [wideIdMapActions, idMapOutcomes_append, ended]
      simp only [Except.bind, idMapOutcomes, written]
      rw [idMapOutcome, last]

end Sample

end Surch.Api
