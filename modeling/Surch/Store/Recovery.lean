import Surch.Lib.Runs
import Surch.Store.Serving
import Surch.Store.WalFile

/-! What a reopened index store recovers: the records of its segments, and those of the log that no
segment has yet. -/
namespace Surch.Store
open Surch.Lib

section Segments

def SegmentStore.Complete (store : SegmentStore) (dir : StoreDir) : Prop :=
  ∀ name ∈ dir.segments.keys, name ∈ store.segments.map SegmentMetadata.fileName

variable {store : SegmentStore} {dir : StoreDir} {records : List WalRecord} {faults : Bool}

theorem SegmentStore.Serves.fileRecords_perm (serves : store.Serves dir records)
    (complete : store.Complete dir) : (fileRecords dir.segments).Perm records := by
  let held (name : String) : List WalRecord :=
    ((dir.segments.get? name).map PersistedSegment.records).getD []
  have files : fileRecords dir.segments = dir.segments.keys.flatMap held := by
    rw [fileRecords, SortedMap.keys, List.flatMap_map]
    apply List.flatMap_congr
    intro file member
    simp only [held, (dir.segments.get?_eq_some_iff file.1 file.2).mpr member, Option.map_some,
      Option.getD_some]
  have names : dir.segments.keys.Perm (store.segments.map SegmentMetadata.fileName) := by
    rw [List.perm_ext_iff_of_nodup dir.segments.keys_nodup serves.distinct]
    intro name
    constructor
    · exact complete name
    · intro member
      obtain ⟨segment, inside, rfl⟩ := List.mem_map.mp member
      exact serves.present segment inside
  rw [files, ← serves.served]
  apply (names.flatMap_right held).trans
  rw [List.flatMap_map]
  exact .refl _

theorem SegmentStore.Filed.complete (filed : store.Filed dir records) : store.Complete dir := by
  intro name member
  rw [filed.all, listed_names]
  exact member

theorem SegmentStore.Complete.append (complete : store.Complete dir) {entries : List WalRecord}
    {outcome : SegmentStore.Outcome (Option SegmentMetadata)} {d : StoreDir}
    (appended : Appended store dir faults entries outcome d) : outcome.2.Complete d := by
  cases appended with
  | nothing => exact complete
  | failed => exact complete
  | written =>
    intro name member
    rw [StoreDir.write, SortedMap.mem_keys_upsert] at member
    rw [List.map_append, List.mem_append]
    rcases member with rfl | old
    · exact .inr List.mem_cons_self
    · exact .inl (complete name old)

theorem SegmentStore.Complete.merge (complete : store.Complete dir) {count : Nat}
    {result : Option SegmentMetadata} {after : SegmentStore} {d : StoreDir}
    (merged : Merged store dir faults count (.ok result, after) d) : after.Complete d := by
  cases merged with
  | nothing => exact complete
  | merged taken sources =>
    intro name member
    obtain ⟨file, found⟩ := (SortedMap.mem_keys_iff _ _).mp member
    rw [foldl_remove_get?] at found
    split at found
    · cases found
    · rename_i kept
      rw [write_get?] at found
      rw [List.map_cons, List.mem_cons]
      split at found
      · rename_i new
        exact .inl new
      · right
        have listed := complete name ((SortedMap.mem_keys_iff _ _).mpr ⟨file, found⟩)
        rw [← List.take_append_drop (store.toMerge count) store.segments, List.map_append,
          List.mem_append] at listed
        exact listed.resolve_left kept

end Segments

section Log

def Logged (dir : StoreDir) (entries : List WalRecord) : Prop :=
  WriteAheadLog.new dir.wal = .ok ⟨WriteAheadLog.lastSequence entries, entries⟩ ∧ Numbered 0 entries

theorem logged_of_walBytes {segments : SortedMap String PersistedSegment} {entries : List WalRecord}
    (numbered : Numbered 0 entries) {bytes : List UInt8} (written : walBytes entries = .ok bytes) :
    Logged ⟨some bytes, segments⟩ entries := by
  refine ⟨?_, numbered⟩
  rw [WriteAheadLog.new]
  dsimp only
  rw [readFile_walBytes numbered written]
  rfl

theorem walBytes_nil : ∃ bytes, walBytes [] = .ok bytes := by
  rw [walBytes, writeHeader_wal]
  exact ⟨_, rfl⟩

def Settled (dir : StoreDir) (flushed : List WalRecord) : Prop :=
  (fileRecords dir.segments).Perm flushed ∧ ∃ logged, Logged dir logged ∧
    ∀ entry ∈ logged, ∃ record ∈ fileRecords dir.segments, entry.sequence ≤ record.sequence

def Pending (dir : StoreDir) (flushed : List WalRecord) : Prop :=
  ∃ logged, (fileRecords dir.segments ++ logged).Perm flushed ∧ Logged dir logged ∧
    ∀ entry ∈ logged, ∀ record ∈ fileRecords dir.segments, record.sequence < entry.sequence

theorem SegmentStore.Serves.of_segments {store : SegmentStore} {dir : StoreDir}
    {records : List WalRecord} (serves : store.Serves dir records) {wal : Option (List UInt8)} :
    store.Serves ⟨wal, dir.segments⟩ records :=
  ⟨serves.named, serves.present, serves.distinct, serves.served⟩

theorem Settled.of_serves {store : SegmentStore} {dir : StoreDir}
    {records flushed logged : List WalRecord} (serves : store.Serves dir records)
    (complete : store.Complete dir) (perm : records.Perm flushed) (log : Logged dir logged)
    (covered : ∀ entry ∈ logged, ∃ record ∈ records, entry.sequence ≤ record.sequence) :
    Settled dir flushed := by
  have held := serves.fileRecords_perm complete
  refine ⟨held.trans perm, logged, log, ?_⟩
  intro entry member
  obtain ⟨record, there, le⟩ := covered entry member
  exact ⟨record, held.mem_iff.mpr there, le⟩

theorem le_maxSequence {records : List WalRecord} {record : WalRecord} (member : record ∈ records) :
    ∃ largest, IndexStore.maxSequence records = some largest ∧ record.sequence ≤ largest ∧
      ∃ last ∈ records, last.sequence = largest := by
  have inside : record.sequence ∈ records.map WalRecord.sequence := List.mem_map_of_mem member
  cases found : (records.map WalRecord.sequence).max? with
  | none =>
    rw [List.max?_eq_none_iff] at found
    rw [found] at inside
    cases inside
  | some largest =>
    obtain ⟨here, above⟩ := List.max?_eq_some_iff.mp found
    obtain ⟨last, there, same⟩ := List.mem_map.mp here
    exact ⟨largest, found, above _ inside, last, there, same⟩

theorem replayRecords_settled {persisted logged : List WalRecord}
    (settled : ∀ entry ∈ logged, ∃ record ∈ persisted, entry.sequence ≤ record.sequence) :
    IndexStore.replayRecords persisted logged = [] := by
  cases logged with
  | nil => cases h : IndexStore.maxSequence persisted <;> simp [IndexStore.replayRecords, h]
  | cons first rest =>
    obtain ⟨record, member, _⟩ := settled first List.mem_cons_self
    obtain ⟨largest, found, _⟩ := le_maxSequence member
    rw [IndexStore.replayRecords, found, List.filter_eq_nil_iff]
    intro entry inside
    obtain ⟨later, there, le⟩ := settled entry inside
    obtain ⟨largest', found', above, _⟩ := le_maxSequence there
    cases found.symm.trans found'
    simp only [gt_iff_lt, decide_eq_true_eq, not_lt]
    omega

theorem replayRecords_pending {persisted logged : List WalRecord}
    (pending : ∀ entry ∈ logged, ∀ record ∈ persisted, record.sequence < entry.sequence) :
    IndexStore.replayRecords persisted logged = logged := by
  cases found : IndexStore.maxSequence persisted with
  | none => rw [IndexStore.replayRecords, found]
  | some largest =>
    obtain ⟨here, _⟩ := List.max?_eq_some_iff.mp found
    obtain ⟨record, member, rfl⟩ := List.mem_map.mp here
    rw [IndexStore.replayRecords, found, List.filter_eq_self]
    intro entry inside
    exact decide_eq_true (pending entry inside record member)

end Log

section Opening

/- What recovery finds on disk: the log is in the segments, or no record of it is. -/
def Recorded (dir : StoreDir) (flushed : List WalRecord) : Prop :=
  Settled dir flushed ∨ Pending dir flushed

/-- A running store: its segments serve what was flushed, and its log goes on from the last number. -/
structure IndexStore.Serves (store : IndexStore) (dir : StoreDir) (flushed : List WalRecord) :
    Prop where
  segments : ∃ records, store.segments.Serves dir records ∧ records.Perm flushed
  complete : store.segments.Complete dir
  numbered : Numbered 0 store.wal.entries
  latest : ∀ entry ∈ store.wal.entries, entry.sequence ≤ store.wal.nextSequence
  settled : Settled dir flushed

variable {store : IndexStore} {dir : StoreDir} {flushed : List WalRecord}

/-- What is replayed completes the segments, and leaves nothing in the log that is newer. -/
theorem Recorded.replay (recorded : Recorded dir flushed)
    (log : WriteAheadLog.new dir.wal = .ok store.wal) :
    let persisted := fileRecords dir.segments
    let replay := IndexStore.replayRecords persisted store.wal.entries
    (persisted ++ replay).Perm flushed ∧
      (∀ entry ∈ store.wal.entries, ∃ record ∈ persisted ++ replay, entry.sequence ≤ record.sequence) ∧
      ∀ entry ∈ store.wal.entries, entry.sequence ≤
        ((IndexStore.maxSequence replay).or (IndexStore.maxSequence persisted)).getD 0 := by
  dsimp only
  rcases recorded with ⟨perm, logged, ⟨read, _⟩, settled⟩ | ⟨logged, perm, ⟨read, _⟩, pending⟩
  · rw [Except.ok.inj (log.symm.trans read), replayRecords_settled settled, List.append_nil]
    refine ⟨perm, settled, ?_⟩
    intro entry member
    obtain ⟨record, inside, le⟩ := settled entry member
    obtain ⟨largest, found, above, _⟩ := le_maxSequence inside
    rw [found]
    exact le.trans above
  · rw [Except.ok.inj (log.symm.trans read), replayRecords_pending pending]
    refine ⟨perm, ?_, ?_⟩
    · intro entry member
      exact ⟨entry, List.mem_append_right _ member, le_refl _⟩
    · intro entry member
      obtain ⟨largest, found, above, _⟩ := le_maxSequence member
      rw [found]
      exact above

theorem retainEntriesGreaterThan_keeps {wal : WriteAheadLog} {bound : Nat}
    (old : ∀ entry ∈ wal.entries, entry.sequence ≤ bound) :
    Program.Keeps StoreDir.serve false (fun _ d => d = dir)
      (fun result d => result = (.ok (), ⟨0, []⟩) ∧
        ∃ bytes, walBytes [] = .ok bytes ∧ d = { dir with wal := some bytes })
      (wal.retainEntriesGreaterThan bound) dir := by
  have none_left : (wal.entries.filter fun entry => entry.sequence > bound) = [] := by
    rw [List.filter_eq_nil_iff]
    intro entry member
    simpa using old entry member
  obtain ⟨bytes, written⟩ := walBytes_nil
  rw [WriteAheadLog.retainEntriesGreaterThan, none_left]
  simp only [WriteAheadLog.flush, written]
  constructor
  · rfl
  · rintro (_ | _) may
    · exact ⟨rfl, bytes, rfl, rfl⟩
    · cases may rfl

theorem Appended.wal {segments : SegmentStore} {faults : Bool} {entries : List WalRecord}
    {outcome : SegmentStore.Outcome (Option SegmentMetadata)} {d : StoreDir}
    (appended : Appended segments dir faults entries outcome d) : d.wal = dir.wal := by
  cases appended <;> rfl

theorem Appended.next {segments : SegmentStore} {faults : Bool} {entries : List WalRecord}
    (small : segments.nextSegmentId + 1 < 2 ^ 64)
    {outcome : SegmentStore.Outcome (Option SegmentMetadata)} {d : StoreDir}
    (appended : Appended segments dir faults entries outcome d) :
    outcome.2.nextSegmentId ≤ segments.nextSegmentId + 1 := by
  cases appended with
  | nothing => exact Nat.le_succ _
  | written => exact (issued_nextSegmentId small).le
  | failed => exact (issued_nextSegmentId small).le

/-- Recovery that stops anywhere can be done again, and when it ends all flushed records are served. -/
theorem recoverFromDisk_keeps (recorded : Recorded dir flushed)
    (log : WriteAheadLog.new dir.wal = .ok store.wal)
    (filed : store.segments.Filed dir (fileRecords dir.segments))
    (small : store.segments.nextSegmentId + 1 < 2 ^ 64) :
    Program.Keeps StoreDir.serve false
      (fun _ d => Recorded d flushed ∧ Named (store.segments.nextSegmentId + 1) d.segments)
      (fun result d => result.1 = .ok () ∧ result.2.Serves d flushed ∧ result.2.wal.entries = [] ∧
        result.2.segments.nextSegmentId ≤ store.segments.nextSegmentId + 1)
      (store.recoverFromDisk dir) dir := by
  obtain ⟨perm, covered, old⟩ := recorded.replay log
  rw [IndexStore.recoverFromDisk, filed.serves.allRecords]
  dsimp only
  generalize IndexStore.replayRecords (fileRecords dir.segments) store.wal.entries = replay
    at perm covered old ⊢
  have appends : Program.Keeps StoreDir.serve false
      (fun _ d => Recorded d flushed ∧ Named (store.segments.nextSegmentId + 1) d.segments)
      (Appended store.segments dir false replay)
      (IndexStore.appendReplay store.segments replay) dir := by
    unfold IndexStore.appendReplay
    split
    · rename_i empty
      exact .nothing (List.isEmpty_iff.mp empty)
    · apply (appendEntries_keeps store.segments dir false replay).crash_mono
      rintro _ _ ⟨_, rfl⟩
      exact ⟨recorded, filed.named.mono (by omega)⟩
  apply appends.bind
  rintro ⟨appended, segments⟩ d after
  have serves := filed.serves.append small after
  have complete := filed.complete.append after
  have next := after.next small
  have same_log := after.wal
  cases appended with
  | error error => cases after with
    | failed may => cases may
  | ok written =>
    have settled {wal : Option (List UInt8)} {logged : List WalRecord}
        (new : Logged ⟨wal, d.segments⟩ logged)
        (inside : ∀ entry ∈ logged, entry ∈ store.wal.entries) : Settled ⟨wal, d.segments⟩ flushed :=
      .of_serves serves.of_segments complete perm new fun entry member =>
        covered entry (inside entry member)
    have logged : Logged dir store.wal.entries := by
      rcases recorded with ⟨_, logged, here, _⟩ | ⟨logged, _, here, _⟩
      · rw [Except.ok.inj (log.symm.trans here.1)]
        exact here
      · rw [Except.ok.inj (log.symm.trans here.1)]
        exact here
    apply ((retainEntriesGreaterThan_keeps old).crash_mono _).bind
    · rintro ⟨retained, wal⟩ _ ⟨same, bytes, written, rfl⟩
      cases same
      have none_numbered : Numbered 0 [] := trivial
      have empty : Logged ⟨some bytes, d.segments⟩ [] := logged_of_walBytes none_numbered written
      refine ⟨rfl, ?_, rfl, next⟩
      constructor
      · exact ⟨_, serves.of_segments, perm⟩
      · exact complete
      · trivial
      · exact nofun
      · exact settled empty nofun
    · rintro _ _ rfl
      refine ⟨.inl ?_, serves.named.mono next⟩
      apply settled _ fun _ => id
      rw [same_log]
      exact logged

/-- An open that stops anywhere can be done again; when it ends, it has served all that was flushed. -/
theorem openStore_keeps (recorded : Recorded dir flushed) {bound : Nat}
    (named : Named bound dir.segments) (small : bound + 2 < 2 ^ 64) (config : IndexStoreConfig) :
    Program.Keeps StoreDir.serve false
      (fun _ d => Recorded d flushed ∧ Named (bound + 2) d.segments)
      (fun result d => ∃ store, result = .ok store ∧ store.Serves d flushed ∧
        store.wal.entries = [] ∧ store.segments.nextSegmentId ≤ bound + 2)
      (IndexStore.openStore config) dir := by
  obtain ⟨next, le, fresh, opened⟩ :=
    openWithConfig_spec named (by omega) config.keepRecentSegments
  obtain ⟨wal, log⟩ : ∃ wal, WriteAheadLog.new dir.wal = .ok wal := by
    rcases recorded with ⟨_, logged, here, _⟩ | ⟨logged, _, here, _⟩
    · exact ⟨_, here.1⟩
    · exact ⟨_, here.1⟩
  rw [IndexStore.openStore, look, Program.request_bind]
  constructor
  · exact ⟨recorded, named.mono (by omega)⟩
  rintro (_ | _) may
  · dsimp only [StoreDir.serve]
    rw [if_neg Bool.false_ne_true]
    dsimp only
    rw [log, opened]
    let store : IndexStore := ⟨wal, ⟨listed dir.segments, next, max config.keepRecentSegments 1⟩, config⟩
    have recovers := recoverFromDisk_keeps recorded (show WriteAheadLog.new dir.wal = .ok store.wal from log)
      ⟨fresh, rfl, rfl⟩
      (show store.segments.nextSegmentId + 1 < 2 ^ 64 from show next + 1 < 2 ^ 64 by omega)
    apply (recovers.crash_mono _).bind
    · rintro ⟨recovered, after⟩ d ⟨same, serves, empty, least⟩
      cases same
      exact ⟨after, rfl, serves, empty, least.trans (show next + 1 ≤ bound + 2 by omega)⟩
    · rintro _ d ⟨again, names⟩
      exact ⟨again, names.mono (show next + 1 ≤ bound + 2 by omega)⟩
  · cases may rfl

end Opening

section Flushing

variable {store : IndexStore} {dir : StoreDir} {flushed : List WalRecord}

theorem foldl_remove_wal (names : List String) (d : StoreDir) :
    (names.foldl StoreDir.remove d).wal = d.wal := by
  induction names generalizing d with
  | nil => rfl
  | cons name names ih => exact ih (d.remove name)

theorem Merged.wal {segments : SegmentStore} {count : Nat} {result : Option SegmentMetadata}
    {after : SegmentStore} {d : StoreDir}
    (merged : Merged segments dir false count (.ok result, after) d) : d.wal = dir.wal := by
  cases merged with
  | nothing => rfl
  | merged => exact foldl_remove_wal _ _

theorem Merged.next {segments : SegmentStore} (small : segments.nextSegmentId + 1 < 2 ^ 64)
    {count : Nat} {result : Option SegmentMetadata} {after : SegmentStore} {d : StoreDir}
    (merged : Merged segments dir false count (.ok result, after) d) :
    after.nextSegmentId ≤ segments.nextSegmentId + 1 := by
  cases merged with
  | nothing => exact Nat.le_succ _
  | merged => exact (issued_nextSegmentId small).le

/- Where a flush stops: before the log is written, with the log written and no segment, with all
records in the segments, or in the middle of a merge. -/
def FlushStopped (store : IndexStore) (dir : StoreDir) (flushed : List WalRecord)
    (bytes : List UInt8) (q : StoreRequest) (d : StoreDir) : Prop :=
  match q with
  | .writeWal _ => d = dir
  | .appendSegment _ _ => d = { dir with wal := some bytes }
  | .removeSource _ => True
  | _ => Settled d (flushed ++ store.wal.entries) ∧
    Named (store.segments.nextSegmentId + 1) d.segments

theorem flushWal_keeps (serves : store.Serves dir flushed)
    (small : store.segments.nextSegmentId + 2 < 2 ^ 64) {bytes : List UInt8}
    (written : walBytes store.wal.entries = .ok bytes) :
    Program.Keeps StoreDir.serve false (FlushStopped store dir flushed bytes)
      (fun result d => result.2.Serves d (flushed ++ store.wal.entries) ∧ result.2.wal.entries = [] ∧
        result.2.segments.nextSegmentId ≤ store.segments.nextSegmentId + 2)
      store.flushWal dir := by
  obtain ⟨records, served, perm⟩ := serves.segments
  have logged (segments : SortedMap String PersistedSegment) :
      Logged ⟨some bytes, segments⟩ store.wal.entries := logged_of_walBytes serves.numbered written
  rw [IndexStore.flushWal, WriteAheadLog.flush, written]
  constructor
  · rfl
  rintro (_ | _) may
  swap
  · cases may rfl
  change Program.Keeps StoreDir.serve false _ _
    (if store.wal.entries.isEmpty then _ else _) { dir with wal := some bytes }
  split
  · rename_i empty
    rw [List.isEmpty_iff] at empty
    have none_logged := logged dir.segments
    rw [empty] at none_logged ⊢
    rw [List.append_nil]
    refine ⟨?_, rfl, Nat.le_add_right _ _⟩
    constructor
    · exact ⟨records, served.of_segments, perm⟩
    · exact serves.complete
    · trivial
    · exact nofun
    · exact .of_serves served.of_segments serves.complete perm none_logged nofun
  · rename_i filled
    have complete_before : store.segments.Complete { dir with wal := some bytes } := serves.complete
    apply ((appendEntries_keeps store.segments { dir with wal := some bytes } false
      store.wal.entries).crash_mono _).bind
    · rintro ⟨appended, segments⟩ d after
      have next := after.next (by omega)
      have now := served.of_segments.append (by omega) after
      have complete := complete_before.append after
      have same_log := after.wal
      cases appended with
      | error error => cases after with
        | failed may => cases may
      | ok written =>
        have all : (records ++ store.wal.entries).Perm (flushed ++ store.wal.entries) :=
          perm.append_right _
        have settled {segments' : SegmentStore} {d' : StoreDir}
            (now' : segments'.Serves d' (records ++ store.wal.entries)) (complete' : segments'.Complete d')
            (same_log' : d'.wal = some bytes) : Settled d' (flushed ++ store.wal.entries) := by
          refine .of_serves now' complete' all (?_ : Logged d' store.wal.entries) ?_
          · have here := logged d'.segments
            rw [← same_log'] at here
            exact here
          · intro entry member
            exact ⟨entry, List.mem_append_right _ member, le_refl _⟩
        change Program.Keeps StoreDir.serve false _ _
          (if 0 < IndexStore.mergeCount _ segments then _ else _) d
        split
        · apply ((mergeOldestSegments_keeps false now _).crash_mono _).bind
          · rintro ⟨outcome, merging⟩ d' merged
            cases outcome with
            | error error => cases merged with
              | unread may => cases may
              | unwritten may => cases may
              | torn may => cases may
            | ok result =>
              have fits : segments.nextSegmentId + 1 < 2 ^ 64 :=
                lt_of_le_of_lt (Nat.succ_le_succ next) (by omega)
              have now' := now.merge fits merged
              have complete' := complete.merge merged
              refine ⟨?_, rfl, (merged.next fits).trans (Nat.succ_le_succ next)⟩
              exact ⟨⟨_, now', all⟩, complete', trivial, nofun,
                settled now' complete' (merged.wal.trans same_log)⟩
          · rintro q d' (removal | ⟨merge, rfl⟩)
            · cases q with
              | removeSource fileName => trivial
              | _ => cases removal
            · cases q with
              | look => exact ⟨settled now complete same_log, now.named.mono next⟩
              | writeMerged fileName segment =>
                exact ⟨settled now complete same_log, now.named.mono next⟩
              | _ => cases merge
        · refine ⟨?_, rfl, next.trans (Nat.le_succ _)⟩
          exact ⟨⟨_, now, all⟩, complete, trivial, nofun, settled now complete same_log⟩
    · rintro q d ⟨append, rfl⟩
      cases q with
      | appendSegment fileName segment => rfl
      | _ => cases append

end Flushing

section Appending

theorem Numbered.append {last next : Nat} {entries : List WalRecord} (numbered : Numbered last entries)
    (latest : ∀ entry ∈ entries, entry.sequence ≤ next) (start : last ≤ next) {record : WalRecord}
    (sound : record.Sound) (above : next < record.sequence) : Numbered last (entries ++ [record]) := by
  induction entries generalizing last with
  | nil => exact ⟨sound, by omega, trivial⟩
  | cons entry entries ih =>
    obtain ⟨here, after, rest⟩ := numbered
    refine ⟨here, after, ih rest ?_ ?_⟩
    · exact fun entry member => latest entry (List.mem_cons_of_mem _ member)
    · exact latest entry List.mem_cons_self

variable {store : IndexStore} {dir : StoreDir} {flushed : List WalRecord}

/-- An append that is accepted puts one record in the log; a refused one changes nothing. -/
theorem WriteAheadLog.append_spec (wal : WriteAheadLog) (index docId : String)
    (operation : WalOperation) (now : UInt64) (numbered : Numbered 0 wal.entries)
    (latest : ∀ entry ∈ wal.entries, entry.sequence ≤ wal.nextSequence)
    (small : wal.nextSequence + 1 < 2 ^ 64) :
    ∃ added, (wal.append index docId operation now).2.entries = wal.entries ++ added ∧
      Numbered 0 (wal.entries ++ added) ∧
      ∀ entry ∈ wal.entries ++ added,
        entry.sequence ≤ (wal.append index docId operation now).2.nextSequence := by
  have next : (wal.nextSequence + 1) % 2 ^ 64 = wal.nextSequence + 1 := Nat.mod_eq_of_lt small
  unfold WriteAheadLog.append
  split
  · rename_i index_valid docId_valid
    have sound : (⟨wal.nextSequence + 1, now.toNat, index, docId, operation⟩ : WalRecord).Sound :=
      ⟨small, Nat.succ_pos _, now.toNat_lt, index_valid, docId_valid⟩
    rw [next]
    refine ⟨[⟨wal.nextSequence + 1, now.toNat, index, docId, operation⟩], rfl,
      numbered.append latest (Nat.zero_le _) sound (Nat.lt_succ_self _), ?_⟩
    intro entry member
    rcases List.mem_append.mp member with old | new
    · exact (latest entry old).trans (Nat.le_succ _)
    · rw [List.mem_singleton.mp new]
  · exact ⟨[], (List.append_nil _).symm, by rwa [List.append_nil], by rwa [List.append_nil]⟩
  · exact ⟨[], (List.append_nil _).symm, by rwa [List.append_nil], by rwa [List.append_nil]⟩

end Appending

section Runs

inductive IndexStoreEvent where
  | openStore (config : IndexStoreConfig) (crash : Option Nat)
  | appendIndex (index docId : String) (source : List UInt8) (now : UInt64)
  | appendDelete (index docId : String) (now : UInt64)
  | flushWal (crash : Option Nat)
  | stop

/- A crash after this many steps; without one, every step is made. -/
def untilCrash : Option Nat → List Verdict
  | none => []
  | some steps => List.replicate steps .served ++ [.stopped]

theorem untilCrash_mild {crash : Option Nat} (member : Verdict.failed ∈ untilCrash crash) :
    false = true := by
  cases crash with
  | none => cases member
  | some steps =>
    rw [untilCrash, List.mem_append, List.mem_replicate, List.mem_singleton] at member
    rcases member with ⟨_, same⟩ | same
    · cases same
    · cases same

/- The directory, the process that has it open, and the history so far: the records appended, and those
whose log was written. -/
structure IndexStoreWorld where
  dir : StoreDir
  process : Option IndexStore
  appended : List WalRecord
  flushed : List WalRecord

def IndexStore.flushStops (store : IndexStore) (dir : StoreDir) (crash : Option Nat) :
    Option StoreRequest :=
  Program.stoppedBefore StoreDir.serve (untilCrash crash) store.flushWal dir

def StoreRequest.isLogWrite : StoreRequest → Bool
  | .writeWal _ => true
  | _ => false

def IndexStore.logs (store : IndexStore) (dir : StoreDir) (crash : Option Nat) : Bool :=
  (walBytes store.wal.entries).toOption.isSome &&
    !(store.flushStops dir crash).any StoreRequest.isLogWrite

/- Where a flush can crash without harm: not while merged sources are removed, and with the log written
only while its numbers are above all in the segments. -/
def IndexStore.SafeStop (store : IndexStore) (dir : StoreDir) : StoreRequest → Prop
  | .removeSource _ => False
  | .appendSegment _ _ => ∀ entry ∈ store.wal.entries, ∀ record ∈ fileRecords dir.segments,
    record.sequence < entry.sequence
  | _ => True

instance (store : IndexStore) (dir : StoreDir) (q : StoreRequest) :
    Decidable (store.SafeStop dir q) := by
  cases q <;> unfold IndexStore.SafeStop <;> infer_instance

namespace IndexStoreWorld

def start : IndexStoreWorld := ⟨.empty, none, [], []⟩

def append (w : IndexStoreWorld) (added : IndexStore → Except WalError Nat × IndexStore) :
    IndexStoreWorld :=
  match w.process with
  | none => w
  | some store =>
    { w with
      process := some (added store).2
      appended := w.appended ++ (added store).2.wal.entries.drop store.wal.entries.length }

def step (w : IndexStoreWorld) : IndexStoreEvent → IndexStoreWorld
  | .openStore config crash =>
    let after := Program.run StoreDir.serve (untilCrash crash) (IndexStore.openStore config) w.dir
    { w with dir := after.2, process := after.1.bind Except.toOption }
  | .appendIndex index docId source now =>
    w.append fun store => store.appendIndex index docId source now
  | .appendDelete index docId now => w.append fun store => store.appendDelete index docId now
  | .flushWal crash =>
    match w.process with
    | none => w
    | some store =>
      let after := Program.run StoreDir.serve (untilCrash crash) store.flushWal w.dir
      { w with
        dir := after.2
        process := after.1.map Prod.snd
        flushed := w.flushed ++ if store.logs w.dir crash then store.wal.entries else [] }
  | .stop => { w with process := none }

def Mild (w : IndexStoreWorld) : IndexStoreEvent → Prop
  | .openStore _ _ => ∀ name ∈ w.dir.segments.keys, ∀ id ∈ (parseSegmentId name).toOption, id < 2 ^ 62
  | .appendIndex _ _ _ _ | .appendDelete _ _ _ =>
    ∀ store ∈ w.process, store.wal.nextSequence + 1 < 2 ^ 64
  | .flushWal crash => ∀ store ∈ w.process, store.segments.nextSegmentId < 2 ^ 62 ∧
    ∀ q ∈ store.flushStops w.dir crash, store.SafeStop w.dir q
  | .stop => True

instance (w : IndexStoreWorld) (e : IndexStoreEvent) : Decidable (w.Mild e) := by
  cases e <;> unfold Mild <;> infer_instance

def unflushed (w : IndexStoreWorld) : List WalRecord :=
  (w.process.map fun store => store.wal.entries).getD []

structure Sound (w : IndexStoreWorld) : Prop where
  recorded : Recorded w.dir w.flushed
  named : Named (2 ^ 62 + 2) w.dir.segments
  small : ∀ store ∈ w.process, store.segments.nextSegmentId ≤ 2 ^ 62 + 2
  serves : ∀ store ∈ w.process, store.Serves w.dir w.flushed
  history : (w.flushed ++ w.unflushed).Sublist w.appended

variable {w : IndexStoreWorld}

theorem sound_start : start.Sound := by
  constructor
  · exact .inl ⟨.refl _, [], ⟨rfl, trivial⟩, nofun⟩
  · exact nofun
  · exact nofun
  · exact nofun
  · exact .refl _

theorem Sound.stop (sound : w.Sound) : (w.step .stop).Sound := by
  constructor
  · exact sound.recorded
  · exact sound.named
  · exact nofun
  · exact nofun
  · exact ((List.Sublist.refl _).append (List.nil_sublist _)).trans sound.history

theorem Sound.opens (sound : w.Sound) {config : IndexStoreConfig} {crash : Option Nat}
    (mild : w.Mild (.openStore config crash)) :
    (w.step (.openStore config crash)).Sound ∧
      (crash = none → (w.step (.openStore config crash)).process.isSome) := by
  have named : Named (2 ^ 62) w.dir.segments := by
    intro name member
    obtain ⟨id, below, rfl⟩ := sound.named name member
    refine ⟨id, mild _ member id ?_, rfl⟩
    rw [parseSegmentId_segmentName (by omega)]
    rfl
  have flushed_only : w.flushed.Sublist w.appended :=
    (List.sublist_append_left _ _).trans sound.history
  have ends := (openStore_keeps sound.recorded named (by decide) config).run
    fun (member : .failed ∈ untilCrash crash) => untilCrash_mild member
  have whole (never : crash = none) : (Program.run StoreDir.serve (untilCrash crash)
      (IndexStore.openStore config) w.dir).1.isSome := by
    rw [never]
    exact Program.run_served _ _ _
  rw [step]
  generalize Program.run StoreDir.serve (untilCrash crash) (IndexStore.openStore config) w.dir = after
    at ends whole ⊢
  obtain ⟨ended, dir⟩ := after
  rcases ends with ⟨_, rfl, ⟨store, rfl, serves, empty, small⟩, _⟩ | ⟨_, rfl, _, recorded, names⟩
  · obtain ⟨records, served, _⟩ := serves.segments
    refine ⟨?_, fun _ => rfl⟩
    constructor
    · exact .inl serves.settled
    · exact served.named.mono small
    · rintro _ ⟨⟩
      exact small
    · rintro _ ⟨⟩
      exact serves
    · change (w.flushed ++ store.wal.entries).Sublist w.appended
      rw [empty, List.append_nil]
      exact flushed_only
  · constructor
    · constructor
      · exact recorded
      · exact names
      · exact nofun
      · exact nofun
      · change (w.flushed ++ []).Sublist w.appended
        rw [List.append_nil]
        exact flushed_only
    · intro never
      cases whole never

theorem Sound.append (sound : w.Sound) {index docId : String} {operation : WalOperation}
    {now : UInt64} (mild : ∀ store ∈ w.process, store.wal.nextSequence + 1 < 2 ^ 64)
    (added : IndexStore → Except WalError Nat × IndexStore)
    (appends : ∀ store, (added store).2 =
      { store with wal := (store.wal.append index docId operation now).2 }) :
    (w.append added).Sound := by
  unfold IndexStoreWorld.append
  cases process : w.process with
  | none => exact sound
  | some store =>
    dsimp only
    rw [appends]
    have serves := sound.serves store process
    obtain ⟨extra, grown, numbered, latest⟩ := store.wal.append_spec index docId operation now
      serves.numbered serves.latest (mild store process)
    have history : (w.flushed ++ store.wal.entries).Sublist w.appended := by
      have before := sound.history
      rw [unflushed, process] at before
      exact before
    constructor
    · exact sound.recorded
    · exact sound.named
    · rintro _ ⟨⟩
      exact sound.small store process
    · rintro _ ⟨⟩
      constructor
      · exact serves.segments
      · exact serves.complete
      · rw [← grown] at numbered
        exact numbered
      · rw [← grown] at latest
        exact latest
      · exact serves.settled
    · simp only [unflushed, Option.map_some, Option.getD_some, grown, List.drop_left]
      rw [← List.append_assoc]
      exact history.append (List.Sublist.refl _)

/-- A flush that writes the log leaves all its records on disk, for the next open if not before. -/
theorem Sound.flush (sound : w.Sound) {crash : Option Nat} (mild : w.Mild (.flushWal crash)) :
    (w.step (.flushWal crash)).Sound := by
  rw [step]
  cases process : w.process with
  | none => exact sound
  | some store =>
    obtain ⟨small, safe⟩ := mild store process
    have serves := sound.serves store process
    have history : (w.flushed ++ store.wal.entries).Sublist w.appended := by
      have before := sound.history
      rw [unflushed, process] at before
      exact before
    dsimp only
    cases written : walBytes store.wal.entries with
    | error error =>
      have refused : store.flushWal = .done (.error (.wal error), store) := by
        rw [IndexStore.flushWal, WriteAheadLog.flush, written]
        rfl
      have unlogged : store.logs w.dir crash = false := by
        rw [IndexStore.logs, written]
        rfl
      have unchanged : w.flushed ++ (if store.logs w.dir crash then store.wal.entries else []) =
          w.flushed := by
        rw [unlogged]
        exact List.append_nil _
      rw [refused, Program.run_done, unchanged]
      constructor
      · exact sound.recorded
      · exact sound.named
      · rintro _ ⟨⟩
        exact sound.small store process
      · rintro _ ⟨⟩
        exact serves
      · exact history
    | ok bytes =>
      have ends := (flushWal_keeps serves (by omega) written).run
        fun (member : .failed ∈ untilCrash crash) => untilCrash_mild member
      have logs : store.logs w.dir crash =
          !(store.flushStops w.dir crash).any StoreRequest.isLogWrite := by
        rw [IndexStore.logs, written]
        rfl
      rw [logs]
      rw [IndexStore.flushStops] at safe ⊢
      generalize Program.stoppedBefore StoreDir.serve (untilCrash crash) store.flushWal w.dir = stopped
        at ends safe ⊢
      generalize Program.run StoreDir.serve (untilCrash crash) store.flushWal w.dir = after at ends ⊢
      obtain ⟨ended, dir⟩ := after
      rcases ends with ⟨outcome, rfl, ⟨now, empty, next⟩, rfl⟩ | ⟨q, rfl, rfl, stopped⟩
      · obtain ⟨records, served, _⟩ := now.segments
        constructor
        · exact .inl now.settled
        · exact served.named.mono (by omega)
        · rintro _ ⟨⟩
          exact (by omega : outcome.2.segments.nextSegmentId ≤ 2 ^ 62 + 2)
        · rintro _ ⟨⟩
          exact now
        · change (w.flushed ++ store.wal.entries ++ outcome.2.wal.entries).Sublist w.appended
          rw [empty, List.append_nil]
          exact history
      · have kept : (w.flushed ++ []).Sublist w.appended := by
          rw [List.append_nil]
          exact (List.sublist_append_left _ _).trans history
        have logged : (w.flushed ++ store.wal.entries ++ []).Sublist w.appended := by
          rw [List.append_nil]
          exact history
        have none_running {dir : StoreDir} {flushed : List WalRecord} (recorded : Recorded dir flushed)
            (named : Named (2 ^ 62 + 2) dir.segments) (history : (flushed ++ []).Sublist w.appended) :
            Sound ⟨dir, none, w.appended, flushed⟩ := by
          constructor
          · exact recorded
          · exact named
          · exact nofun
          · exact nofun
          · exact history
        cases q with
        | writeWal written =>
          cases stopped
          apply none_running _ sound.named
          · exact (List.append_nil _).symm ▸ kept
          · exact (List.append_nil w.flushed).symm ▸ sound.recorded
        | appendSegment fileName segment =>
          cases stopped
          have pending : Recorded { w.dir with wal := some bytes } (w.flushed ++ store.wal.entries) :=
            .inr ⟨store.wal.entries, serves.settled.1.append_right _,
              logged_of_walBytes serves.numbered written, safe _ rfl⟩
          exact none_running pending sound.named logged
        | removeSource fileName => exact absurd (safe _ rfl) id
        | look => exact none_running (.inl stopped.1) (stopped.2.mono (by omega)) logged
        | writeMerged fileName segment =>
          exact none_running (.inl stopped.1) (stopped.2.mono (by omega)) logged

theorem Sound.step (sound : w.Sound) (e : IndexStoreEvent) (mild : w.Mild e) : (w.step e).Sound := by
  cases e with
  | openStore config crash => exact (sound.opens mild).1
  | appendIndex index docId source now => exact sound.append mild _ fun _ => rfl
  | appendDelete index docId now => exact sound.append mild _ fun _ => rfl
  | flushWal crash => exact sound.flush mild
  | stop => exact sound.stop

def after (events : List IndexStoreEvent) : IndexStoreWorld :=
  runEvents IndexStoreWorld.step events start

def allSegmentRecords (w : IndexStoreWorld) : Option (Except SegmentStoreError (List WalRecord)) :=
  w.process.map fun store => store.allSegmentRecords w.dir

/-- However often the store is opened, and wherever it crashes without harm, it serves every record
whose log was written once, and nothing else. -/
theorem recovered_exactly_once (events : List IndexStoreEvent)
    (mild : Admitted IndexStoreWorld.step Mild start events) :
    ((after events).process.isSome → ∃ records,
        (after events).allSegmentRecords = some (.ok records) ∧ records.Perm (after events).flushed) ∧
      (after events).flushed.Sublist (after events).appended ∧
      ∀ config, (after events).Mild (.openStore config none) →
        ((after events).step (.openStore config none)).process.isSome := by
  have sound : (after events).Sound := mild.keeps (fun _ e sound mild => sound.step e mild) sound_start
  refine ⟨?_, ?_, ?_⟩
  · intro running
    obtain ⟨store, process⟩ := Option.isSome_iff_exists.mp running
    obtain ⟨records, served, perm⟩ := (sound.serves store process).segments
    refine ⟨records, ?_, perm⟩
    rw [allSegmentRecords, process, Option.map_some, IndexStore.allSegmentRecords, served.allRecords]
  · exact (List.sublist_append_left _ _).trans sound.history
  · exact fun config mild => (sound.opens mild).2 rfl

section Examples

def config : IndexStoreConfig := ⟨2, 1⟩

def crashedFlush : List IndexStoreEvent :=
  [.openStore config none, .appendIndex "books" "1" [] 0, .flushWal none,
    .appendDelete "books" "1" 0, .flushWal (some 1), .openStore config none]

theorem crashedFlush_recovered :
    ((after crashedFlush).process.isSome → ∃ records,
        (after crashedFlush).allSegmentRecords = some (.ok records) ∧
          records.Perm (after crashedFlush).flushed) ∧
      (after crashedFlush).flushed.Sublist (after crashedFlush).appended ∧
      ∀ config, (after crashedFlush).Mild (.openStore config none) →
        ((after crashedFlush).step (.openStore config none)).process.isSome :=
  recovered_exactly_once _ (by decide +kernel)

/-- After an open the numbers start again, so a record flushed before a crash passes for one that is
in a segment; and a crash in the middle of a merge leaves its sources twice. -/
theorem flushed_lost_and_doubled :
    let flushes (docId : String) (crash : Option Nat) : List IndexStoreEvent :=
      [.appendDelete "books" docId 0, .flushWal crash]
    let record (sequence : Nat) (docId : String) : WalRecord := ⟨sequence, 0, "books", docId, .delete⟩
    let renumbered := after ([.openStore config none] ++ flushes "1" none ++
      [.openStore config none] ++ flushes "2" (some 1) ++ [.openStore config none])
    let torn := after ([.openStore config none] ++ flushes "1" none ++ flushes "2" none ++
      flushes "3" (some 4) ++ [.openStore config none])
    (renumbered.flushed = [record 1 "1", record 1 "2"] ∧
      renumbered.allSegmentRecords = some (.ok [record 1 "1"])) ∧
    (torn.flushed = [record 1 "1", record 2 "2", record 3 "3"] ∧
      torn.allSegmentRecords =
        some (.ok [record 1 "1", record 2 "2", record 3 "3", record 1 "1", record 2 "2"])) := by
  decide +kernel

end Examples

end IndexStoreWorld

end Runs

end Surch.Store
