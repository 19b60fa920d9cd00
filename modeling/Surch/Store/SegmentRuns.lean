import Surch.Lib.Runs
import Surch.Store.Serving

/-! The life of a segment directory: appends, merges, stops and reopenings in any order. -/
namespace Surch.Store
open Surch.Lib

section Idle

variable {store : SegmentStore} {dir : StoreDir}

/- Whether a merge gets as far as writing its file: there is something to merge, and the sources can
be read and the file written. -/
def SegmentStore.writesMerged (store : SegmentStore) (count : Nat) (verdicts : List Verdict) : Bool :=
  decide (2 ≤ count) && decide (2 ≤ store.segments.length) && (verdicts.take 2).all (· == .served)

def Idled (store : SegmentStore) (dir : StoreDir)
    (after : Option (SegmentStore.Outcome (Option SegmentMetadata)) × StoreDir) : Prop :=
  after.2 = dir ∧ ∀ outcome, after.1 = some outcome → outcome.2 = store ∨ outcome.2 = store.issued

theorem Idled.of_done (verdicts : List Verdict)
    {outcome : SegmentStore.Outcome (Option SegmentMetadata)}
    (same : outcome.2 = store ∨ outcome.2 = store.issued) :
    Idled store dir (Program.run StoreDir.serve verdicts (.done outcome) dir) := by
  rw [Program.run_done]
  constructor
  · rfl
  · rintro _ ⟨⟩
    exact same

theorem mergeOldestSegments_idle {count : Nat} {verdicts : List Verdict}
    (idle : store.writesMerged count verdicts = false) :
    Idled store dir (Program.run StoreDir.serve verdicts (store.mergeOldestSegments count) dir) := by
  unfold SegmentStore.mergeOldestSegments
  split
  · exact .of_done _ (.inl rfl)
  rename_i busy
  dsimp only
  split
  · exact .of_done _ (.inl rfl)
  have some_work : decide (2 ≤ count) && decide (2 ≤ store.segments.length) := by
    rw [Bool.and_eq_true, decide_eq_true_eq, decide_eq_true_eq]
    omega
  rw [SegmentStore.writesMerged, some_work, Bool.true_and] at idle
  -- The first request reads the sources, the second one writes the merged file.
  cases verdicts with
  | nil => cases idle
  | cons first verdicts =>
    cases first with
    | stopped => exact ⟨rfl, fun _ ended => by cases ended⟩
    | failed => exact .of_done verdicts (.inl rfl)
    | served =>
      rw [look, Program.request_bind, Program.run]
      dsimp only [StoreDir.serve]
      rw [if_neg Bool.false_ne_true]
      dsimp only
      cases readAll dir.segments (store.segments.take (store.toMerge count)) with
      | error error => exact .of_done verdicts (.inl rfl)
      | ok records =>
        cases verdicts with
        | nil => cases idle
        | cons second verdicts =>
          cases second with
          | stopped => exact ⟨rfl, fun _ ended => by cases ended⟩
          | failed => exact .of_done verdicts (.inr rfl)
          | served => cases idle

end Idle

section Histories

/- What happens to a segment directory. Reopening ends the process that was there. -/
inductive SegmentEvent where
  | reopen (keepRecentSegments : Nat)
  | append (entries : List WalRecord) (verdicts : List Verdict)
  | merge (count : Nat) (verdicts : List Verdict)
  | stop

/- The directory, the process that has it open, and the history so far: the records of the appends
that succeeded, whether a merged file was written, and whether a merge then failed in this process. -/
structure SegmentWorld where
  dir : StoreDir
  process : Option SegmentStore
  appended : List WalRecord
  merged : Bool
  torn : Bool

namespace SegmentWorld

def start : SegmentWorld := ⟨.empty, none, [], false, false⟩

def step (w : SegmentWorld) : SegmentEvent → SegmentWorld
  | .reopen keepRecentSegments =>
    { w with
      process := (SegmentStore.openWithConfig w.dir.segments keepRecentSegments).toOption
      torn := false }
  | .stop => { w with process := none }
  | .append entries verdicts =>
    match w.process with
    | none => w
    | some store =>
      match Program.run StoreDir.serve verdicts (store.appendEntries entries) w.dir with
      | (none, dir) => { w with dir, process := none }
      | (some outcome, dir) =>
        { w with
          dir
          process := some outcome.2
          appended := w.appended ++ if outcome.1.toOption.isSome then entries else [] }
  | .merge count verdicts =>
    match w.process with
    | none => w
    | some store =>
      let merged := w.merged || store.writesMerged count verdicts
      match Program.run StoreDir.serve verdicts (store.mergeOldestSegments count) w.dir with
      | (none, dir) => { w with dir, process := none, merged }
      | (some outcome, dir) =>
        { w with
          dir
          process := some outcome.2
          merged
          torn := w.torn || (merged && outcome.1.toOption.isNone) }

/- A directory with a merged file is not opened again, and names are given out while they have twelve
digits. -/
def Mild (w : SegmentWorld) : SegmentEvent → Prop
  | .reopen _ => w.merged = false
  | .append _ _ | .merge _ _ => ∀ store ∈ w.process, store.nextSegmentId < 10 ^ 12
  | .stop => True

instance (w : SegmentWorld) (e : SegmentEvent) : Decidable (w.Mild e) := by
  cases e <;> unfold Mild <;> infer_instance

/- What holds after every event: the process serves all records unless a merge failed on it, and
without a merged file the directory holds them in order. -/
structure Sound (w : SegmentWorld) : Prop where
  whole : w.merged = false → w.torn = false
  small : w.torn = false → ∀ store ∈ w.process, store.nextSegmentId ≤ 10 ^ 12
  serves : w.torn = false → ∀ store ∈ w.process, store.Serves w.dir w.appended
  named : w.merged = false → Named (10 ^ 12) w.dir.segments
  held : w.merged = false → fileRecords w.dir.segments = w.appended
  filed : w.merged = false → ∀ store ∈ w.process, store.Filed w.dir w.appended

theorem sound_start : start.Sound := by
  constructor
  · exact fun _ => rfl
  · exact fun _ => nofun
  · exact fun _ => nofun
  · exact fun _ => nofun
  · exact fun _ => rfl
  · exact fun _ => nofun

variable {w : SegmentWorld}

theorem Sound.opened (sound : w.Sound) (unmerged : w.merged = false) (keepRecentSegments : Nat) :
    ∃ store, SegmentStore.openWithConfig w.dir.segments keepRecentSegments = .ok store ∧
      store.nextSegmentId ≤ 10 ^ 12 ∧ store.Filed w.dir w.appended := by
  obtain ⟨next, le, named, opened⟩ :=
    openWithConfig_spec (sound.named unmerged) (by decide) keepRecentSegments
  exact ⟨_, opened, le.trans (by decide), named, rfl, sound.held unmerged⟩

theorem Sound.reopen (sound : w.Sound) {keepRecentSegments : Nat}
    (mild : w.Mild (.reopen keepRecentSegments)) : (w.step (.reopen keepRecentSegments)).Sound := by
  obtain ⟨store, opened, small, filed⟩ := sound.opened mild keepRecentSegments
  rw [step, opened]
  constructor
  · exact fun _ => rfl
  · rintro _ _ ⟨⟩
    exact small
  · rintro _ _ ⟨⟩
    exact filed.serves
  · exact sound.named
  · exact sound.held
  · rintro _ _ ⟨⟩
    exact filed

theorem Sound.stop (sound : w.Sound) : (w.step .stop).Sound := by
  constructor
  · exact sound.whole
  · exact fun _ => nofun
  · exact fun _ => nofun
  · exact sound.named
  · exact sound.held
  · exact fun _ => nofun

theorem Sound.append (sound : w.Sound) {entries : List WalRecord} {verdicts : List Verdict}
    (mild : w.Mild (.append entries verdicts)) : (w.step (.append entries verdicts)).Sound := by
  rw [step]
  cases process : w.process with
  | none => exact sound
  | some store =>
    dsimp only
    have small : store.nextSegmentId < 10 ^ 12 := mild store process
    have ends := (appendEntries_keeps store w.dir true entries).run
      fun (_ : Verdict.failed ∈ verdicts) => rfl
    generalize Program.run StoreDir.serve verdicts (store.appendEntries entries) w.dir = after
      at ends ⊢
    obtain ⟨ended, dir⟩ := after
    rcases ends with ⟨outcome, rfl, appended, _⟩ | ⟨_, rfl, _, _, rfl⟩
    · have next : outcome.2.nextSegmentId ≤ 10 ^ 12 := by
        cases appended with
        | nothing => exact small.le
        | written => exact (issued_nextSegmentId (by omega)).trans_le small
        | failed => exact (issued_nextSegmentId (by omega)).trans_le small
      have filed (unmerged : w.merged = false) :=
        (sound.filed unmerged store process).append small appended
      constructor
      · exact sound.whole
      · rintro _ _ ⟨⟩
        exact next
      · rintro whole _ ⟨⟩
        exact (sound.serves whole store process).append (by omega) appended
      · exact fun unmerged => (filed unmerged).named.mono next
      · exact fun unmerged => (filed unmerged).held
      · rintro unmerged _ ⟨⟩
        exact filed unmerged
    · exact sound.stop

theorem Sound.merge (sound : w.Sound) {count : Nat} {verdicts : List Verdict}
    (mild : w.Mild (.merge count verdicts)) : (w.step (.merge count verdicts)).Sound := by
  rw [step]
  cases process : w.process with
  | none => exact sound
  | some store =>
    dsimp only
    have small : store.nextSegmentId < 10 ^ 12 := mild store process
    have next : store.issued.nextSegmentId ≤ 10 ^ 12 :=
      (issued_nextSegmentId (by omega)).trans_le small
    have idles (idle : store.writesMerged count verdicts = false) : Idled store w.dir
        (Program.run StoreDir.serve verdicts (store.mergeOldestSegments count) w.dir) :=
      mergeOldestSegments_idle idle
    have merges (whole : w.torn = false) :=
      (mergeOldestSegments_keeps true (sound.serves whole store process) count).run
        fun (_ : Verdict.failed ∈ verdicts) => rfl
    generalize Program.run StoreDir.serve verdicts (store.mergeOldestSegments count) w.dir = after
      at idles merges ⊢
    obtain ⟨ended, dir⟩ := after
    -- While no merged file is written, only a name can have been used up.
    have idled (unmerged : (w.merged || store.writesMerged count verdicts) = false) :
        w.merged = false ∧ dir = w.dir ∧
          ∀ outcome, ended = some outcome → outcome.2.Filed w.dir w.appended := by
      rw [Bool.or_eq_false_iff] at unmerged
      obtain ⟨same, kept⟩ := idles unmerged.2
      have filed := sound.filed unmerged.1 store process
      refine ⟨unmerged.1, same, ?_⟩
      intro outcome here
      rcases kept outcome here with unchanged | unchanged
      · rw [unchanged]
        exact filed
      · rw [unchanged]
        have next := issued_nextSegmentId (show store.nextSegmentId + 1 < 2 ^ 64 by omega)
        exact ⟨filed.named.mono (by omega), filed.all, filed.held⟩
    have named (unmerged : (w.merged || store.writesMerged count verdicts) = false) :
        Named (10 ^ 12) dir.segments := by
      obtain ⟨before, rfl, _⟩ := idled unmerged
      exact sound.named before
    have held (unmerged : (w.merged || store.writesMerged count verdicts) = false) :
        fileRecords dir.segments = w.appended := by
      obtain ⟨before, rfl, _⟩ := idled unmerged
      exact sound.held before
    cases ended with
    | none =>
      constructor
      · exact fun unmerged => sound.whole (idled unmerged).1
      · exact fun _ => nofun
      · exact fun _ => nofun
      · exact named
      · exact held
      · exact fun _ => nofun
    | some outcome =>
      have merged (whole : w.torn = false) : Merged store w.dir true count outcome dir := by
        rcases merges whole with ⟨_, same, merged, _⟩ | ⟨_, stopped, _⟩
        · cases same
          exact merged
        · cases stopped
      constructor
      · intro unmerged
        change (w.torn || ((w.merged || store.writesMerged count verdicts) && _)) = false
        rw [sound.whole (idled unmerged).1, show (w.merged || _) = false from unmerged]
        rfl
      · rintro whole _ ⟨⟩
        rw [Bool.or_eq_false_iff] at whole
        cases merged whole.1 with
        | nothing => exact small.le
        | unread => exact small.le
        | unwritten => exact next
        | torn => exact next
        | merged => exact next
      · rintro whole _ ⟨⟩
        rw [Bool.or_eq_false_iff] at whole
        obtain ⟨result, served⟩ := outcome
        cases result with
        | ok result =>
          exact (sound.serves whole.1 store process).merge (by omega) (merged whole.1)
        | error error =>
          obtain ⟨_, rfl, filed⟩ := idled ((Bool.and_true _).symm.trans whole.2)
          exact (filed _ rfl).serves
      · exact named
      · exact held
      · rintro unmerged _ ⟨⟩
        obtain ⟨_, rfl, filed⟩ := idled unmerged
        exact filed outcome rfl

theorem Sound.step (sound : w.Sound) (e : SegmentEvent) (mild : w.Mild e) : (w.step e).Sound := by
  cases e with
  | reopen keepRecentSegments => exact sound.reopen mild
  | append entries verdicts => exact sound.append mild
  | merge count verdicts => exact sound.merge mild
  | stop => exact sound.stop

def after (events : List SegmentEvent) : SegmentWorld := runEvents SegmentWorld.step events start

def allRecords (w : SegmentWorld) : Option (Except SegmentStoreError (List WalRecord)) :=
  w.process.map fun store => store.allRecords w.dir

/-- All records are served in the order of the appends, through appends and merges of one process and
through any reopening before a merged file is written. -/
theorem allRecords_appended (events : List SegmentEvent)
    (mild : Admitted SegmentWorld.step Mild start events) :
    ((after events).process.isSome → (after events).torn = false →
        (after events).allRecords = some (.ok (after events).appended)) ∧
      ((after events).merged = false → ∀ keepRecentSegments,
        ((after events).step (.reopen keepRecentSegments)).allRecords =
            some (.ok (after events).appended) ∧
          ((after events).process.isSome → ((after events).step (.reopen keepRecentSegments)).allRecords =
            (after events).allRecords)) := by
  have sound : (after events).Sound := mild.keeps (fun _ e sound mild => sound.step e mild) sound_start
  constructor
  · intro running whole
    obtain ⟨store, process⟩ := Option.isSome_iff_exists.mp running
    rw [allRecords, process, Option.map_some, (sound.serves whole store process).allRecords]
  · intro unmerged keepRecentSegments
    obtain ⟨store, opened, _, filed⟩ := sound.opened unmerged keepRecentSegments
    have served : ((after events).step (.reopen keepRecentSegments)).allRecords =
        some (.ok (after events).appended) := by
      rw [allRecords, SegmentWorld.step, opened]
      exact congrArg some filed.serves.allRecords
    refine ⟨served, ?_⟩
    intro running
    obtain ⟨before, process⟩ := Option.isSome_iff_exists.mp running
    rw [served, allRecords, process, Option.map_some,
      (sound.filed unmerged before process).serves.allRecords]

section Examples

def deletion (sequence : Nat) : WalRecord := ⟨sequence, 0, "books", "1", .delete⟩

theorem allRecords_appended_twice :
    let events : List SegmentEvent := [.reopen 1, .append [deletion 1] [], .append [deletion 2] [.stopped],
      .reopen 1, .append [deletion 2, deletion 3] []]
    ((after events).process.isSome → (after events).torn = false →
        (after events).allRecords = some (.ok (after events).appended)) ∧
      ((after events).merged = false → ∀ keepRecentSegments,
        ((after events).step (.reopen keepRecentSegments)).allRecords =
            some (.ok (after events).appended) ∧
          ((after events).process.isSome → ((after events).step (.reopen keepRecentSegments)).allRecords =
            (after events).allRecords)) :=
  allRecords_appended _ (by decide +kernel)

/-- After a merge the oldest records come last when the store is opened again; stopped before it
removes its sources, they come twice. -/
theorem merged_then_reopened :
    let appends : List SegmentEvent :=
      [.reopen 1, .append [deletion 1] [], .append [deletion 2] [], .append [deletion 3] []]
    ((after (appends ++ [.merge 2 []])).allRecords =
        some (.ok [deletion 1, deletion 2, deletion 3]) ∧
      (after (appends ++ [.merge 2 [], .reopen 1])).allRecords =
        some (.ok [deletion 3, deletion 1, deletion 2])) ∧
    (after (appends ++ [.merge 2 [.served, .served, .stopped], .reopen 1])).allRecords =
      some (.ok [deletion 1, deletion 2, deletion 3, deletion 1, deletion 2]) := by
  decide +kernel

end Examples

end SegmentWorld

end Histories

end Surch.Store
