import Surch.Slm.Kept

/-! Retention by `max_count` is effective, as long as the log does not forget a snapshot that is still
there. -/
namespace Surch.Slm
open Surch.Lib

section Tracking

variable {T : Type} (chrono : Chrono T) {id : String} {policy : SlmPolicy} {location : String}
  {w : RetentionWorld T}

/- The events in the life of one policy whose repository stays registered and whose retention calls
succeed. -/
def OnePolicy (policy : SlmPolicy) : RetentionEvent T id → Prop
  | .take version _ _ _ => version = policy
  | .enforce _ failures => true ∉ failures
  | .remove => False
  | .register repoName _ => repoName ≠ policy.repository
  | .unregister repoName => repoName ≠ policy.repository
  | _ => True

instance (policy : SlmPolicy) : ∀ e : RetentionEvent T id, Decidable (OnePolicy policy e)
  | .take version _ _ _ => inferInstanceAs (Decidable (version = policy))
  | .record _ => isTrue trivial
  | .enforce _ failures => inferInstanceAs (Decidable (true ∉ failures))
  | .put _ => isTrue trivial
  | .remove => isFalse fun impossible => impossible
  | .create _ _ => isTrue trivial
  | .delete _ _ => isTrue trivial
  | .register repoName _ => inferInstanceAs (Decidable (repoName ≠ policy.repository))
  | .unregister repoName => inferInstanceAs (Decidable (repoName ≠ policy.repository))
  | .pass _ _ => isTrue trivial

/- A record is not written over that of a snapshot which is still there, and a retention pass finds no
snapshot whose record is still to come. -/
def Remembers (location : String) (w : RetentionWorld T) : RetentionEvent T id → Prop
  | .record _ => executionLogCapacity ≤ w.log.length → ∀ entry ∈ w.log.head?,
    ∀ s ∈ w.store.world.snapshotsAt location, entry.2 ≠ some s.number
  | .enforce _ _ => ∀ t ∈ w.running, t.recorded = false → t.number = none
  | _ => True

instance (location : String) (w : RetentionWorld T) :
    ∀ e : RetentionEvent T id, Decidable (Remembers location w e)
  | .record _ => inferInstanceAs (Decidable (_ → _))
  | .enforce _ _ => inferInstanceAs (Decidable (∀ t ∈ w.running, _ → _))
  | .take _ _ _ _ => isTrue trivial
  | .put _ => isTrue trivial
  | .remove => isTrue trivial
  | .create _ _ => isTrue trivial
  | .delete _ _ => isTrue trivial
  | .register _ _ => isTrue trivial
  | .unregister _ => isTrue trivial
  | .pass _ _ => isTrue trivial

def RecordOf (s : RepositorySnapshot) (exec : SlmExecution) (number : Option Nat) : Prop :=
  exec.state = .success ∧ exec.snapshotName = s.name ∧ number = some s.number

/- Every snapshot of the policy has its record in the log, or will get it. -/
structure Tracked (id : String) (policy : SlmPolicy) (location : String) (w : RetentionWorld T) :
    Prop where
  history : History id w
  registered : w.store.world.repositories.get? policy.repository = some location
  one : ∀ t ∈ w.running, t.policy = policy
  distinct : ((w.store.world.snapshotsAt location).map (·.name)).Nodup
  bounded : w.log.length ≤ executionLogCapacity
  tracked : ∀ s ∈ w.mine location, (∃ entry ∈ w.log, RecordOf s entry.1 entry.2) ∨
    ∃ t ∈ w.running, t.recorded = false ∧ RecordOf s t.exec t.number

theorem RetentionWorld.Fresh.tracked (fresh : w.Fresh id)
    (registered : w.store.world.repositories.get? policy.repository = some location)
    (distinct : ((w.store.world.snapshotsAt location).map (·.name)).Nodup) :
    Tracked id policy location w := by
  constructor
  · exact fresh.history
  · exact registered
  · rw [fresh.running]
    exact fun _ member => absurd member List.not_mem_nil
  · exact distinct
  · rw [fresh.log]
    exact Nat.zero_le _
  · intro s member
    have own := of_decide_eq_true (List.mem_filter.mp member).2
    rw [fresh.own] at own
    exact absurd own List.not_mem_nil

theorem distinct_append {snapshots : List RepositorySnapshot}
    (distinct : (snapshots.map (·.name)).Nodup) {s : RepositorySnapshot}
    (free : ∀ s' ∈ snapshots, s'.name ≠ s.name) : ((snapshots ++ [s]).map (·.name)).Nodup := by
  rw [List.map_append, List.nodup_append]
  constructor
  · exact distinct
  · constructor
    · exact List.nodup_singleton _
    · intro name old other new
      obtain ⟨s', member, rfl⟩ := List.mem_map.mp old
      obtain rfl := List.mem_singleton.mp new
      exact free s' member

theorem Tracked.setWorld (tracked : Tracked id policy location w) {world : Surroundings T}
    (history : History id (w.setWorld world))
    (registered : world.repositories.get? policy.repository = some location)
    (distinct : ((world.snapshotsAt location).map (·.name)).Nodup)
    (mine : ∀ s ∈ (w.setWorld world).mine location, s ∈ w.mine location) :
    Tracked id policy location (w.setWorld world) := by
  constructor
  · exact history
  · exact registered
  · exact tracked.one
  · exact distinct
  · exact tracked.bounded
  · exact fun s member => tracked.tracked s (mine s member)

theorem Tracked.take (tracked : Tracked id policy location w) (named : policy.name = id)
    (fireTime : T) (failures : List Bool) :
    Tracked id policy location (w.take chrono policy fireTime failures) := by
  have history := tracked.history.take chrono policy named fireTime failures
  rcases w.take_cases chrono policy fireTime failures with
    ⟨exec, failed, same⟩ | ⟨exec, location', registered, success, free, same⟩
  · rw [same] at history ⊢
    constructor
    · exact history
    · exact tracked.registered
    · intro t member
      rcases List.mem_append.mp member with old | new
      · exact tracked.one t old
      · obtain rfl := List.mem_singleton.mp new
        rfl
    · exact tracked.distinct
    · exact tracked.bounded
    · intro s member
      rcases tracked.tracked s member with logged | ⟨t, inside, pending⟩
      · exact .inl logged
      · exact .inr ⟨t, List.mem_append_left _ inside, pending⟩
  · obtain rfl := Option.some.inj (registered.symm.trans tracked.registered)
    rw [same] at history ⊢
    constructor
    · exact history
    · exact tracked.registered
    · intro t member
      rcases List.mem_append.mp member with old | new
      · exact tracked.one t old
      · obtain rfl := List.mem_singleton.mp new
        rfl
    · rw [snapshotsAt_created, if_pos rfl]
      exact distinct_append tracked.distinct free
    · exact tracked.bounded
    · intro s member
      obtain ⟨listed, own⟩ := List.mem_filter.mp member
      rw [snapshotsAt_created, if_pos rfl] at listed
      rcases List.mem_append.mp listed with old | new
      · have below := tracked.history.ordered.below _ s old
        have mine : s.number ∈ w.own := by
          rcases List.mem_append.mp (of_decide_eq_true own) with before | now
          · exact before
          · exact absurd (List.mem_singleton.mp now) below.ne
        rcases tracked.tracked s (List.mem_filter.mpr ⟨old, decide_eq_true mine⟩) with
          logged | ⟨t, inside, pending⟩
        · exact .inl logged
        · exact .inr ⟨t, List.mem_append_left _ inside, pending⟩
      · obtain rfl := List.mem_singleton.mp new
        right
        exact ⟨_, List.mem_append_right _ (List.mem_singleton_self _), rfl, success, rfl, rfl⟩

theorem mem_pushBounded_or {α : Type} {queue : List α} (bounded : queue.length ≤ executionLogCapacity)
    {x : α} (member : x ∈ queue) (entry : α) :
    x ∈ pushBounded queue entry ∨ (executionLogCapacity ≤ queue.length ∧ queue.head? = some x) := by
  unfold pushBounded
  by_cases full : executionLogCapacity ≤ queue.length
  · have one : queue.length + 1 - executionLogCapacity = 1 := by omega
    rw [one]
    cases queue with
    | nil => cases member
    | cons first rest =>
      rcases List.mem_cons.mp member with rfl | later
      · exact .inr ⟨full, rfl⟩
      · exact .inl (List.mem_append_left _ later)
  · have none : queue.length + 1 - executionLogCapacity = 0 := by omega
    rw [none, List.drop_zero]
    exact .inl (List.mem_append_left _ member)

theorem mem_pushBounded_self {α : Type} {queue : List α} (bounded : queue.length ≤ executionLogCapacity)
    (entry : α) : entry ∈ pushBounded queue entry := by
  unfold pushBounded
  have capacity : executionLogCapacity = 100 := rfl
  rw [List.drop_append_of_le_length (by omega)]
  exact List.mem_append_right _ (List.mem_singleton_self _)

theorem Tracked.record (tracked : Tracked id policy location w) (position : Nat)
    (remembers : Remembers location w (.record position : RetentionEvent T id)) :
    Tracked id policy location (w.record id position) := by
  have history := tracked.history.record position
  unfold RetentionWorld.record at history ⊢
  split
  · rename_i version exec number here
    rw [here] at history
    constructor
    · exact history
    · exact tracked.registered
    · intro t inside
      dsimp only at inside
      split at inside
      · rcases List.mem_or_eq_of_mem_set inside with old | rfl
        · exact tracked.one t old
        · have one : version = policy := tracked.one _ (List.mem_of_getElem? here)
          exact one
      · exact tracked.one t (List.mem_of_mem_eraseIdx inside)
    · exact tracked.distinct
    · dsimp only
      rw [length_pushBounded]
      exact min_le_right _ _
    · intro s member
      rcases tracked.tracked s member with ⟨entry, logged, record⟩ | ⟨t, inside, pending, record⟩
      · rcases mem_pushBounded_or tracked.bounded logged (exec, number) with kept | ⟨full, oldest⟩
        · exact .inl ⟨entry, kept, record⟩
        · exact absurd record.2.2
            (remembers full entry oldest s (List.mem_of_mem_filter member))
      · -- either this is the record that is written now, or it is still to come
        obtain ⟨i, there⟩ := List.getElem?_of_mem inside
        by_cases same : i = position
        · subst same
          obtain rfl := Option.some.inj (there.symm.trans here)
          exact .inl ⟨_, mem_pushBounded_self tracked.bounded _, record⟩
        · right
          refine ⟨t, ?_, pending, record⟩
          dsimp only
          split
          · apply List.mem_of_getElem? (i := i)
            rw [List.getElem?_set_ne (Ne.symm same)]
            exact there
          · exact List.mem_eraseIdx_iff_getElem?.mpr ⟨i, same, there⟩
  · exact tracked

/-- A retention pass only takes snapshots away, and only its own execution is over. -/
theorem Tracked.enforce (tracked : Tracked id policy location w) (position : Nat)
    (failures : List Bool) : Tracked id policy location (w.enforce chrono position failures) := by
  have history := tracked.history.enforce chrono position failures
  rcases w.enforce_cases chrono position failures with
    same | ⟨version, exec, number, d, here, same, deleted⟩
  · rw [same]
    exact tracked
  · rw [same] at history ⊢
    have frame : d.world.repositories = w.store.world.repositories ∧
        (d.world.snapshotsAt location).Sublist (w.store.world.snapshotsAt location) := by
      rcases deleted with rfl | ⟨retention, other, -, -, deletes⟩
      · exact ⟨rfl, List.Sublist.refl _⟩
      · constructor
        · exact deletes.repositories
        · by_cases at_location : location = other
          · subst at_location
            exact deletes.remaining
          · rw [deletes.elsewhere location at_location]
    obtain ⟨repositories, sublist⟩ := frame
    constructor
    · exact history
    · rw [repositories]
      exact tracked.registered
    · exact fun t member => tracked.one t (List.mem_of_mem_eraseIdx member)
    · exact (sublist.map _).nodup tracked.distinct
    · exact tracked.bounded
    · intro s member
      rcases tracked.tracked s ((sublist.filter _).subset member) with
        logged | ⟨t, inside, pending, record⟩
      · exact .inl logged
      · obtain ⟨i, there⟩ := List.getElem?_of_mem inside
        right
        refine ⟨t, List.mem_eraseIdx_iff_getElem?.mpr ⟨i, ?_, there⟩, pending, record⟩
        rintro rfl
        obtain rfl := Option.some.inj (there.symm.trans here)
        cases pending

theorem Tracked.step (tracked : Tracked id policy location w) (e : RetentionEvent T id)
    (one : OnePolicy policy e) (remembers : Remembers location w e) :
    Tracked id policy location (w.step chrono e) := by
  have history := tracked.history.step chrono e
  cases e with
  | take version named fireTime failures =>
    obtain rfl : version = policy := one
    exact tracked.take chrono named fireTime failures
  | record position => exact tracked.record position remembers
  | enforce position failures => exact tracked.enforce chrono position failures
  | put version => exact ⟨history, tracked.registered, tracked.one, tracked.distinct, tracked.bounded,
      tracked.tracked⟩
  | remove => cases one
  | create other snapName =>
    rcases createSnapshot_cases w.store.world false other "" snapName with
      ⟨message, same⟩ | ⟨free, -, created⟩
    · apply tracked.setWorld history
      · rw [same]
        exact tracked.registered
      · rw [same]
        exact tracked.distinct
      · rw [same]
        exact fun s member => member
    · apply tracked.setWorld history
      · rw [created]
        exact tracked.registered
      · rw [created, snapshotsAt_created]
        split
        · rename_i here
          rw [← here] at free ⊢
          exact distinct_append tracked.distinct free
        · exact tracked.distinct
      · rw [created]
        intro s member
        obtain ⟨listed, own⟩ := List.mem_filter.mp member
        apply List.mem_filter.mpr
        refine ⟨?_, own⟩
        unfold RetentionWorld.setWorld at listed
        dsimp only at listed
        rw [snapshotsAt_created] at listed
        split at listed
        · rename_i here
          rcases List.mem_append.mp listed with old | new
          · rw [here]
            exact old
          · -- the new number is not one of the policy
            obtain rfl := List.mem_singleton.mp new
            exact absurd (tracked.history.own_below _ (of_decide_eq_true own)) (lt_irrefl _)
        · exact listed
  | delete other snapName =>
    have sublist : ((w.store.world.deleteSnapshot false other "" snapName).2.snapshotsAt
        location).Sublist (w.store.world.snapshotsAt location) := deleteSnapshot_sublist _ _ _ _ _
    apply tracked.setWorld history
    · rw [repositories_deleteSnapshot]
      exact tracked.registered
    · exact (sublist.map _).nodup tracked.distinct
    · exact fun s member => (sublist.filter _).subset member
  | register repoName other =>
    apply tracked.setWorld history
    · rw [SortedMap.get?_upsert, if_neg (Ne.symm one)]
      exact tracked.registered
    · exact tracked.distinct
    · exact fun s member => member
  | unregister repoName =>
    apply tracked.setWorld history
    · rw [SortedMap.get?_erase, if_neg (Ne.symm one)]
      exact tracked.registered
    · exact tracked.distinct
    · exact fun s member => member
  | pass clock failure =>
    apply tracked.setWorld history
    · exact tracked.registered
    · exact tracked.distinct
    · exact fun s member => member

theorem Tracked.run (tracked : Tracked id policy location w) {events : List (RetentionEvent T id)}
    (one : ∀ e ∈ events, OnePolicy policy e)
    (remembers : Admitted (RetentionWorld.step chrono) (Remembers location) w events) :
    Tracked id policy location (runEvents (RetentionWorld.step chrono) events w) := by
  induction events generalizing w with
  | nil => exact tracked
  | cons e rest ih =>
    apply ih
    · exact tracked.step chrono e (one e List.mem_cons_self) remembers.1
    · exact fun e member => one e (List.mem_cons_of_mem _ member)
    · exact remembers.2

end Tracking

section Bound

variable {T : Type} (chrono : Chrono T) {id : String} {policy : SlmPolicy} {location : String}
  {w : RetentionWorld T} {t : TakenSnapshot} {retention : SlmRetention} {maxCount : Nat}

theorem mem_drop_of_not_surplus {successful : List SlmExecution}
    (limited : retention.maxCount = some maxCount) {e : SlmExecution} (member : e ∈ successful)
    (spared : e.snapshotName ∉ retention.surplus successful) :
    e ∈ successful.drop (successful.length - max maxCount retention.minimum) := by
  rw [SlmRetention.surplus, limited] at spared
  dsimp only at spared
  rw [← List.take_append_drop (successful.length - max maxCount retention.minimum) successful,
    List.mem_append] at member
  rcases member with early | late
  · exact absurd (List.mem_map_of_mem early) spared
  · exact late

theorem enforce_bounded (tracked : Tracked id policy location w) {position : Nat}
    {failures : List Bool} (here : w.running[position]? = some t) (recorded : t.recorded = true)
    (given : policy.retention = some retention) (limited : retention.maxCount = some maxCount)
    (succeeds : true ∉ failures) (complete : ∀ t ∈ w.running, t.recorded = false → t.number = none) :
    ((w.enforce chrono position failures).mine location).length ≤ max maxCount retention.minimum := by
  obtain ⟨version, exec, number, isRecorded⟩ := t
  obtain rfl : isRecorded = true := recorded
  obtain rfl : version = policy := tracked.one _ (List.mem_of_getElem? here)
  have named : version.name = id := tracked.history.named _ (List.mem_of_getElem? here)
  obtain ⟨sublist, gone⟩ := (enforce_gone chrono given tracked.registered tracked.distinct).complete
    fun failed => absurd failed succeeds
  unfold RetentionWorld.enforce RetentionWorld.mine
  rw [here]
  dsimp only
  generalize (Program.complete SlmStore.serve failures (enforceMaxCountRetention chrono version)
    w.store).2 = d at sublist gone ⊢
  generalize left : (d.world.snapshotsAt location).filter (fun s => s.number ∈ w.own) = mine
  have within : mine.Sublist (d.world.snapshotsAt location) := left ▸ List.filter_sublist
  have distinct : (mine.map (·.name)).Nodup :=
    ((within.trans sublist).map _).nodup tracked.distinct
  have names : mine.map (·.name) ⊆ ((w.store.successful id location).drop
      ((w.store.successful id location).length - max maxCount retention.minimum)).map
        (·.snapshotName) := by
    intro name member
    obtain ⟨s, inside, rfl⟩ := List.mem_map.mp member
    have listed := (within.trans sublist).subset inside
    have own : s.number ∈ w.own := by
      rw [← left] at inside
      exact of_decide_eq_true (List.mem_filter.mp inside).2
    rcases tracked.tracked s (List.mem_filter.mpr ⟨listed, decide_eq_true own⟩) with
      ⟨entry, logged, success, same, -⟩ | ⟨t, running, pending, -, -, some_number⟩
    · have successful : entry.1 ∈ w.store.successful id location := by
        rw [RetentionWorld.successful_eq tracked.history]
        apply List.mem_map_of_mem
        apply List.mem_filter.mpr
        refine ⟨logged, decide_eq_true ⟨success, ?_⟩⟩
        rw [same]
        exact List.mem_map_of_mem listed
      rw [← same]
      apply List.mem_map_of_mem
      apply mem_drop_of_not_surplus limited successful
      intro surplus
      apply gone s (within.subset inside)
      rw [← same, SlmStore.prune, named]
      exact List.mem_append_left _ surplus
    · rw [complete t running pending] at some_number
      cases some_number
  calc mine.length = (mine.map (·.name)).length := (List.length_map _).symm
    _ ≤ _ := (List.subperm_of_subset distinct names).length_le
    _ ≤ max maxCount retention.minimum := by
      rw [List.length_map, List.length_drop]
      omega

/-- In the life of one policy, after every successful execution no more of its snapshots are left than
`max(max_count, min_count)`, if the log has not forgotten one that was still there. -/
theorem retention_effective {start : RetentionWorld T} (fresh : start.Fresh id)
    (registered : start.store.world.repositories.get? policy.repository = some location)
    (distinct : ((start.store.world.snapshotsAt location).map (·.name)).Nodup)
    (given : policy.retention = some retention) (limited : retention.maxCount = some maxCount)
    {events : List (RetentionEvent T id)} {position : Nat} {failures : List Bool}
    (one : ∀ e ∈ events ++ [.enforce position failures], OnePolicy policy e)
    (remembers : Admitted (RetentionWorld.step chrono) (Remembers location) start
      (events ++ [.enforce position failures]))
    (here : (runEvents (RetentionWorld.step chrono) events start).running[position]? = some t)
    (recorded : t.recorded = true) :
    ((runEvents (RetentionWorld.step chrono) (events ++ [.enforce position failures]) start).mine
      location).length ≤ max maxCount retention.minimum := by
  have earlier := remembers.of_append
  have tracked := (fresh.tracked registered distinct).run chrono
    (fun e member => one e (List.mem_append_left _ member)) earlier.1
  rw [runEvents, List.foldl_append]
  exact enforce_bounded chrono tracked here recorded given limited
    (one _ (List.mem_append_right _ (List.mem_singleton_self _))) earlier.2.1

def twoPasses : List (RetentionEvent Int "daily") := twoDays ++ [.enforce 0 []]

theorem retention_effective_two_days :
    ((runEvents (RetentionWorld.step gregorian) twoPasses dailyStart).mine "/backups").length ≤ 1 := by
  have registered : dailyStart.store.world.repositories.get? dailyPolicy.repository =
      some "/backups" := rfl
  have given : dailyPolicy.retention = some ⟨none, none, some 1⟩ := rfl
  have here : (runEvents (RetentionWorld.step gregorian) twoDays dailyStart).running[0]? =
      some (dailyTaken "daily-20260517" 1 1779019200000) := by decide +kernel
  exact retention_effective gregorian dailyStart_fresh registered .nil given rfl
    (by decide +kernel) (by decide +kernel) here rfl

def manyFailures : List (RetentionEvent Int "daily") :=
  takeDaily 1778932800000 ++ .enforce 0 [] ::
    (List.replicate executionLogCapacity (takeDaily 1778932800000)).flatten ++
      takeDaily 1779019200000

/-- A hundred failures push the record of a snapshot out of the log, and the snapshot stays. -/
theorem not_retention_effective : ¬ ∀ (events : List (RetentionEvent Int "daily")) (position : Nat)
    (failures : List Bool) (t : TakenSnapshot),
    (∀ e ∈ events ++ [.enforce position failures], OnePolicy dailyPolicy e) →
      (runEvents (RetentionWorld.step gregorian) events dailyStart).running[position]? = some t →
        t.recorded = true →
          ((runEvents (RetentionWorld.step gregorian) (events ++ [.enforce position failures])
            dailyStart).mine "/backups").length ≤ max 1 0 := by
  intro always
  have bounded := always manyFailures 0 [] (dailyTaken "daily-20260517" 1 1779019200000)
    (by decide +kernel) (by decide +kernel) rfl
  exact absurd bounded (by decide +kernel)

end Bound

end Surch.Slm
