import Surch.Slm.History

/-! Retention deletes nothing that it should keep, as long as the records of the log stand for the
snapshots that carry their names. -/
namespace Surch.Slm
open Surch.Lib

section Ascending

variable {numbers : List Nat} {n : Nat}

theorem lt_of_mem_drop (ascending : numbers.Pairwise (· < ·)) {i : Nat} (here : numbers[i]? = some n) :
    ∀ m ∈ numbers.drop (i + 1), n < m := by
  intro m member
  obtain ⟨inside, value⟩ := List.getElem?_eq_some_iff.mp here
  obtain ⟨j, later, rfl⟩ := List.mem_iff_getElem.mp member
  rw [List.getElem_drop, ← value]
  exact List.pairwise_iff_getElem.mp ascending i _ inside _ (by omega)

theorem length_above_lt (ascending : numbers.Pairwise (· < ·)) {d : Nat}
    (last : n ∈ numbers.drop d) : (numbers.filter fun m => n < m).length < numbers.length - d := by
  induction numbers generalizing d with
  | nil => simp at last
  | cons first rest ih =>
    obtain ⟨least, ascending⟩ := List.pairwise_cons.mp ascending
    cases d with
    | zero =>
      rw [List.drop_zero] at last
      have outside : ¬ n < first := by
        rcases List.mem_cons.mp last with rfl | later
        · exact lt_irrefl _
        · exact (least n later).asymm
      rw [List.filter_cons_of_neg (by simpa using outside)]
      exact Nat.lt_succ_of_le (List.length_filter_le _ _)
    | succ d =>
      rw [List.drop_succ_cons] at last
      have outside : ¬ n < first := (least n (List.mem_of_mem_drop last)).asymm
      rw [List.filter_cons_of_neg (by simpa using outside), List.length_cons, Nat.add_sub_add_right]
      exact ih ascending last

/-- So it is not among those that leave `keep` others of the same list above them. -/
theorem length_lt_of_above (ascending : numbers.Pairwise (· < ·)) {d : Nat}
    (last : n ∈ numbers.drop d) (above : List Nat) (distinct : above.Nodup) (inside : ∀ m ∈ above, m ∈ numbers)
    (larger : ∀ m ∈ above, n < m) : above.length < numbers.length - d := by
  have subset : above ⊆ numbers.filter fun m => n < m := by
    intro m member
    exact List.mem_filter.mpr ⟨inside m member, decide_eq_true (larger m member)⟩
  exact (List.subperm_of_subset distinct subset).length_le.trans_lt (length_above_lt ascending last)

end Ascending

section Invariant

variable {T : Type} (chrono : Chrono T) {id : String} {w : RetentionWorld T}

structure History (id : String) (w : RetentionWorld T) : Prop where
  logged : w.log.map (·.1) = w.store.policies.executionsOf id
  log_own : ∀ entry ∈ w.log, ∀ n, entry.2 = some n → n ∈ w.own
  running_own : ∀ t ∈ w.running, ∀ n, t.number = some n → n ∈ w.own
  own_below : ∀ n ∈ w.own, n < w.store.world.created
  named : ∀ t ∈ w.running, t.policy.name = id
  ordered : w.store.world.Ordered

theorem RetentionWorld.Fresh.history (fresh : w.Fresh id) : History id w := by
  constructor
  · rw [fresh.log, fresh.executions, List.map_nil]
  · rw [fresh.log]
    exact fun _ member => absurd member List.not_mem_nil
  · rw [fresh.running]
    exact fun _ member => absurd member List.not_mem_nil
  · rw [fresh.own]
    exact fun _ member => absurd member List.not_mem_nil
  · rw [fresh.running]
    exact fun _ member => absurd member List.not_mem_nil
  · exact ⟨fresh.ascending, fresh.below⟩

/-- A world that is still in order, with the registry and the executions as they were. -/
theorem History.setWorld (history : History id w) {world : Surroundings T} (ordered : world.Ordered)
    (created : w.store.world.created ≤ world.created) : History id (w.setWorld world) := by
  constructor
  · exact history.logged
  · exact history.log_own
  · exact history.running_own
  · exact fun n own => (history.own_below n own).trans_le created
  · exact history.named
  · exact ordered

theorem History.take (history : History id w) (policy : SlmPolicy) (named : policy.name = id)
    (fireTime : T) (failures : List Bool) : History id (w.take chrono policy fireTime failures) := by
  rcases w.take_cases chrono policy fireTime failures with
    ⟨exec, failed, same⟩ | ⟨exec, location, registered, success, free, same⟩
  · rw [same]
    constructor
    · exact history.logged
    · exact history.log_own
    · intro t member n number
      rcases List.mem_append.mp member with old | new
      · exact history.running_own t old n number
      · obtain rfl := List.mem_singleton.mp new
        cases number
    · exact history.own_below
    · intro t member
      rcases List.mem_append.mp member with old | new
      · exact history.named t old
      · obtain rfl := List.mem_singleton.mp new
        exact named
    · exact history.ordered
  · rw [same]
    constructor
    · exact history.logged
    · intro entry member n number
      exact List.mem_append_left _ (history.log_own entry member n number)
    · intro t member n number
      rcases List.mem_append.mp member with old | new
      · exact List.mem_append_left _ (history.running_own t old n number)
      · obtain rfl := List.mem_singleton.mp new
        cases number
        exact List.mem_append_right _ (List.mem_singleton_self _)
    · intro n own
      apply Nat.lt_succ_of_le
      rcases List.mem_append.mp own with old | new
      · exact (history.own_below n old).le
      · obtain rfl := List.mem_singleton.mp new
        exact le_refl _
    · intro t member
      rcases List.mem_append.mp member with old | new
      · exact history.named t old
      · obtain rfl := List.mem_singleton.mp new
        exact named
    · exact history.ordered.append location exec.snapshotName

theorem History.record (history : History id w) (position : Nat) : History id (w.record id position) := by
  unfold RetentionWorld.record
  split
  · rename_i policy exec number here
    have member := List.mem_of_getElem? here
    -- whatever becomes of the execution, its policy and its number stay
    have running {t : TakenSnapshot} (inside : t ∈ (w.record id position).running) :
        ∃ t' ∈ w.running, t'.policy = t.policy ∧ t'.number = t.number := by
      rw [RetentionWorld.record, here] at inside
      dsimp only at inside
      split at inside
      · rcases List.mem_or_eq_of_mem_set inside with old | rfl
        · exact ⟨t, old, rfl, rfl⟩
        · exact ⟨_, member, rfl, rfl⟩
      · exact ⟨t, List.mem_of_mem_eraseIdx inside, rfl, rfl⟩
    constructor
    · rw [pushBounded_map, history.logged]
      simp [SlmStore.serve]
    · intro entry inside n recorded
      rcases mem_pushBounded inside with old | rfl
      · exact history.log_own entry old n recorded
      · exact history.running_own _ member n recorded
    · intro t inside n taken
      obtain ⟨t', old, -, same⟩ := running (by rwa [RetentionWorld.record, here])
      exact history.running_own t' old n (same.trans taken)
    · exact history.own_below
    · intro t inside
      obtain ⟨t', old, same, -⟩ := running (by rwa [RetentionWorld.record, here])
      rw [← same]
      exact history.named t' old
    · exact history.ordered
  · exact history

theorem RetentionWorld.enforce_cases (w : RetentionWorld T) (position : Nat) (failures : List Bool) :
    w.enforce chrono position failures = w ∨
    ∃ policy exec number d, w.running[position]? = some ⟨policy, exec, number, true⟩ ∧
      w.enforce chrono position failures = { w with
        store := d
        running := w.running.eraseIdx position } ∧
      (d = w.store ∨ ∃ retention location, policy.retention = some retention ∧
        w.store.world.repositories.get? policy.repository = some location ∧
        Deletes location (w.store.prune chrono policy retention location) w.store d) := by
  unfold RetentionWorld.enforce
  split
  · rename_i policy exec number here
    right
    refine ⟨policy, exec, number, _, here, rfl, ?_⟩
    cases given : policy.retention with
    | none =>
      left
      exact (enforce_nothing chrono (.inl given)).complete fun _ => rfl
    | some retention =>
      cases registered : w.store.world.repositories.get? policy.repository with
      | none =>
        left
        exact (enforce_nothing chrono (.inr registered)).complete fun _ => rfl
      | some location =>
        right
        refine ⟨retention, location, rfl, rfl, ?_⟩
        exact (enforce_deletes chrono given registered).complete fun _ => rfl
  · exact .inl rfl

theorem History.enforce (history : History id w) (position : Nat) (failures : List Bool) :
    History id (w.enforce chrono position failures) := by
  rcases w.enforce_cases chrono position failures with same | ⟨policy, exec, number, d, -, same, deleted⟩
  · rw [same]
    exact history
  · rw [same]
    have frame : d.policies = w.store.policies ∧ d.world.created = w.store.world.created ∧
        ∀ location, (d.world.snapshotsAt location).Sublist (w.store.world.snapshotsAt location) := by
      rcases deleted with rfl | ⟨retention, location, -, -, deletes⟩
      · exact ⟨rfl, rfl, fun _ => List.Sublist.refl _⟩
      · refine ⟨deletes.policies, deletes.created, ?_⟩
        intro other
        by_cases here : other = location
        · rw [here]
          exact deletes.remaining
        · rw [deletes.elsewhere other here]
    obtain ⟨policies, created, sublist⟩ := frame
    constructor
    · rw [policies]
      exact history.logged
    · exact history.log_own
    · exact fun t member => history.running_own t (List.mem_of_mem_eraseIdx member)
    · rw [created]
      exact history.own_below
    · exact fun t member => history.named t (List.mem_of_mem_eraseIdx member)
    · exact history.ordered.sublist created sublist

theorem History.step (history : History id w) (e : RetentionEvent T id) :
    History id (w.step chrono e) := by
  cases e with
  | take policy named fireTime failures => exact history.take chrono policy named fireTime failures
  | record position => exact history.record position
  | enforce position failures => exact history.enforce chrono position failures
  | put policy =>
    exact ⟨history.logged, history.log_own, history.running_own, history.own_below, history.named,
      history.ordered⟩
  | remove =>
    constructor
    · simp [RetentionWorld.step, SlmStore.serve]
    · exact fun _ member => absurd member List.not_mem_nil
    · exact history.running_own
    · exact history.own_below
    · exact history.named
    · exact history.ordered
  | create location snapName =>
    exact history.setWorld (history.ordered.create _ _ _ _) (created_le_createSnapshot _ _ _ _)
  | delete location snapName =>
    apply history.setWorld
    · exact history.ordered.sublist (created_deleteSnapshot _ _ _ _)
        fun _ => deleteSnapshot_sublist _ _ _ _ _
    · rw [created_deleteSnapshot]
  | register repoName location =>
    exact history.setWorld ⟨history.ordered.ascending, history.ordered.below⟩ (le_refl _)
  | unregister repoName =>
    exact history.setWorld ⟨history.ordered.ascending, history.ordered.below⟩ (le_refl _)
  | pass clock failure =>
    exact history.setWorld ⟨history.ordered.ascending, history.ordered.below⟩ (le_refl _)

theorem History.run (history : History id w) (events : List (RetentionEvent T id)) :
    History id (runEvents (RetentionWorld.step chrono) events w) := by
  induction events generalizing w with
  | nil => exact history
  | cons e rest ih => exact ih (history.step chrono e)

end Invariant

section Candidates

variable {T : Type} {id location : String} {w : RetentionWorld T}

namespace RetentionWorld

def present (w : RetentionWorld T) (location : String) : List (SlmExecution × Option Nat) :=
  w.log.filter fun entry => entry.1.state = .success ∧
    entry.1.snapshotName ∈ (w.store.world.snapshotsAt location).map (·.name)

def Matched (w : RetentionWorld T) (location : String) : Prop :=
  ∀ entry ∈ w.log, entry.1.state = .success → ∀ s ∈ w.store.world.snapshotsAt location,
    s.name = entry.1.snapshotName → entry.2 = some s.number

def numbers (w : RetentionWorld T) (location : String) : List Nat :=
  (w.present location).filterMap (·.2)

theorem successful_eq (history : History id w) (location : String) :
    w.store.successful id location = (w.present location).map (·.1) := by
  rw [SlmStore.successful, stillThere, ← history.logged, List.filter_map, List.filter_map,
    List.filter_filter]
  congr 1
  apply List.filter_congr
  intro entry _
  simp [Bool.and_comm]

theorem number_of_present (matched : w.Matched location) {entry : SlmExecution × Option Nat}
    (member : entry ∈ w.present location) :
    ∃ s ∈ w.store.world.snapshotsAt location, s.name = entry.1.snapshotName ∧
      entry.2 = some s.number := by
  obtain ⟨logged, there⟩ := List.mem_filter.mp member
  obtain ⟨success, named⟩ := of_decide_eq_true there
  obtain ⟨s, listed, same⟩ := List.mem_map.mp named
  exact ⟨s, listed, same, matched entry logged success s listed same⟩

theorem map_some_numbers (matched : w.Matched location) :
    (w.numbers location).map some = (w.present location).map (·.2) := by
  have numbered : ∀ entry ∈ w.present location, entry.2.isSome := by
    intro entry member
    obtain ⟨s, -, -, number⟩ := number_of_present matched member
    rw [number]
    rfl
  unfold numbers
  generalize w.present location = entries at numbered
  induction entries with
  | nil => rfl
  | cons entry rest ih =>
    obtain ⟨n, here⟩ := Option.isSome_iff_exists.mp (numbered entry List.mem_cons_self)
    rw [List.filterMap_cons_some here, List.map_cons, List.map_cons, here,
      ih fun entry member => numbered entry (List.mem_cons_of_mem _ member)]

theorem length_numbers (matched : w.Matched location) :
    (w.numbers location).length = (w.present location).length := by
  simpa using congrArg List.length (map_some_numbers matched)

theorem getElem?_numbers (matched : w.Matched location) {i n : Nat} {entry : SlmExecution × Option Nat}
    (here : (w.present location)[i]? = some entry) (number : entry.2 = some n) :
    (w.numbers location)[i]? = some n := by
  have same := congrArg (fun entries => entries[i]?) (map_some_numbers matched)
  simpa [List.getElem?_map, here, number] using same

theorem numbers_mine (history : History id w) (matched : w.Matched location) :
    ∀ n ∈ w.numbers location, n ∈ (w.mine location).map (·.number) := by
  intro n member
  obtain ⟨entry, inside, number⟩ := List.mem_filterMap.mp member
  obtain ⟨s, listed, -, own⟩ := number_of_present matched inside
  obtain rfl : n = s.number := Option.some.inj (number.symm.trans own)
  have known := history.log_own entry (List.mem_of_mem_filter inside) _ own
  exact List.mem_map.mpr ⟨s, List.mem_filter.mpr ⟨listed, decide_eq_true known⟩, rfl⟩

end RetentionWorld

end Candidates

section Keeping

variable {T : Type} (chrono : Chrono T) {id location : String} {w w' : RetentionWorld T}
  {t : TakenSnapshot} {retention : SlmRetention}

/- When retention can go by the log: its records stand for the snapshots that have their names, they
are in the order in which the snapshots were taken, the record of this execution is the last of them, and,
unless a minimum protects it, it is younger than `expire_after`. -/
structure Reliable (chrono : Chrono T) (w : RetentionWorld T) (t : TakenSnapshot)
    (retention : SlmRetention) (location : String) : Prop where
  matched : w.Matched location
  in_order : (w.log.filterMap (·.2)).Pairwise (· < ·)
  latest : ∀ m ∈ t.number, ∀ n ∈ w.log.filterMap (·.2), n ≤ m
  unexpired : retention.minimum = 0 →
    ∀ millis ∈ retention.expireAfter.bind parseRetentionDurationMillis, ∀ entry ∈ w.log,
      entry.2.isSome → entry.2 = t.number →
        chrono.timestampMillis w.store.world.clock - millis < entry.1.finishedAtMillis

/- What is left alone: the snapshots of others and those elsewhere, the snapshot of the execution itself,
and as many of the latest snapshots of the policy as `min_count` says. -/
structure Kept (w w' : RetentionWorld T) (t : TakenSnapshot) : Prop where
  own_only : ∀ location, ∀ s ∈ w.store.world.snapshotsAt location,
    s ∉ w'.store.world.snapshotsAt location →
      s.number ∈ w.own ∧ w.store.world.repositories.get? t.policy.repository = some location
  current : ∀ retention ∈ t.policy.retention, 1 ≤ max (retention.maxCount.getD 0) retention.minimum →
    ∀ location, ∀ s ∈ w.store.world.snapshotsAt location, t.number = some s.number →
      s ∈ w'.store.world.snapshotsAt location
  recent : ∀ retention ∈ t.policy.retention, ∀ location,
    ((w.mine location).drop ((w.mine location).length - retention.minimum)).Sublist
      (w'.store.world.snapshotsAt location)

theorem Kept.of_same (same : ∀ location, w'.store.world.snapshotsAt location =
    w.store.world.snapshotsAt location) (t : TakenSnapshot) : Kept w w' t := by
  constructor
  · intro location s member gone
    rw [same] at gone
    exact absurd member gone
  · intro retention _ _ location s member _
    rw [same]
    exact member
  · intro retention _ location
    rw [same]
    exact (List.drop_sublist _ _).trans List.filter_sublist

theorem mem_prune (history : History id w) (named : t.policy.name = id) {name : String}
    (member : name ∈ w.store.prune chrono t.policy retention location) :
    ∃ (i : Nat) (entry : SlmExecution × Option Nat), (w.present location)[i]? = some entry ∧
      entry.1.snapshotName = name ∧ i + retention.minimum < (w.present location).length ∧
      (i + max (retention.maxCount.getD 0) retention.minimum < (w.present location).length ∨
        ∃ millis ∈ retention.expireAfter.bind parseRetentionDurationMillis,
          entry.1.finishedAtMillis ≤ chrono.timestampMillis w.store.world.clock - millis) := by
  have listed {i : Nat} {e : SlmExecution}
      (at_i : (w.store.successful t.policy.name location)[i]? = some e) :
      ∃ entry, (w.present location)[i]? = some entry ∧ entry.1 = e := by
    rw [named, RetentionWorld.successful_eq history, List.getElem?_map] at at_i
    exact Option.map_eq_some_iff.mp at_i
  have length : (w.store.successful t.policy.name location).length = (w.present location).length := by
    rw [named, RetentionWorld.successful_eq history, List.length_map]
  rcases List.mem_append.mp member with surplus | expired
  · obtain ⟨i, e, at_i, same, many⟩ := mem_surplus surplus
    obtain ⟨entry, here, rfl⟩ := listed at_i
    rw [length] at many
    exact ⟨i, entry, here, same, by omega, .inl many⟩
  · split at expired
    · cases expired
    · rename_i millis limited
      obtain ⟨i, e, at_i, same, many, old⟩ := mem_expired expired
      obtain ⟨entry, here, rfl⟩ := listed at_i
      rw [length] at many
      exact ⟨i, entry, here, same, many, .inr ⟨millis, limited, old⟩⟩

/-- Whatever name is deleted, its snapshot is the one of a record at its place in the log. -/
theorem number_of_prune (history : History id w) (named : t.policy.name = id)
    (matched : w.Matched location) {s : RepositorySnapshot}
    (listed : s ∈ w.store.world.snapshotsAt location)
    (member : s.name ∈ w.store.prune chrono t.policy retention location) :
    ∃ (i : Nat) (entry : SlmExecution × Option Nat), entry ∈ w.log ∧ entry.2 = some s.number ∧
      (w.numbers location)[i]? = some s.number ∧
      i + retention.minimum < (w.numbers location).length ∧
      (i + max (retention.maxCount.getD 0) retention.minimum < (w.numbers location).length ∨
        ∃ millis ∈ retention.expireAfter.bind parseRetentionDurationMillis,
          entry.1.finishedAtMillis ≤ chrono.timestampMillis w.store.world.clock - millis) := by
  obtain ⟨i, entry, here, same, many, why⟩ := mem_prune chrono history named member
  obtain ⟨logged, there⟩ := List.mem_filter.mp (List.mem_of_getElem? here)
  have number := matched entry logged (of_decide_eq_true there).1 s listed same.symm
  rw [← RetentionWorld.length_numbers matched] at many why
  exact ⟨i, entry, logged, number, RetentionWorld.getElem?_numbers matched here number, many, why⟩

theorem numbers_ascending (in_order : (w.log.filterMap (·.2)).Pairwise (· < ·)) (location : String) :
    (w.numbers location).Pairwise (· < ·) :=
  in_order.sublist (List.filter_sublist.filterMap _)

theorem recent_not_pruned (history : History id w) (named : t.policy.name = id)
    (reliable : Reliable chrono w t retention location) {s : RepositorySnapshot}
    (recent : s ∈ (w.mine location).drop ((w.mine location).length - retention.minimum)) :
    s.name ∉ w.store.prune chrono t.policy retention location := by
  intro member
  have listed := List.mem_of_mem_filter (List.mem_of_mem_drop recent)
  obtain ⟨i, -, -, -, here, many, -⟩ :=
    number_of_prune chrono history named reliable.matched listed member
  have ascending := numbers_ascending reliable.in_order location
  have sorted : ((w.mine location).map (·.number)).Pairwise (· < ·) :=
    (history.ordered.ascending location).sublist (List.filter_sublist.map _)
  have last : s.number ∈ ((w.mine location).map (·.number)).drop
      ((w.mine location).length - retention.minimum) := by
    rw [← List.map_drop]
    exact List.mem_map_of_mem recent
  have few := length_lt_of_above sorted last ((w.numbers location).drop (i + 1))
    ((ascending.sublist (List.drop_sublist _ _)).imp ne_of_lt)
    (fun m later => RetentionWorld.numbers_mine history reliable.matched m (List.mem_of_mem_drop later))
    (lt_of_mem_drop ascending here)
  rw [List.length_drop, List.length_map] at few
  omega

theorem current_not_pruned (history : History id w) (named : t.policy.name = id)
    (reliable : Reliable chrono w t retention location)
    (limited : 1 ≤ max (retention.maxCount.getD 0) retention.minimum) {s : RepositorySnapshot}
    (listed : s ∈ w.store.world.snapshotsAt location) (taken : t.number = some s.number) :
    s.name ∉ w.store.prune chrono t.policy retention location := by
  intro member
  obtain ⟨i, entry, logged, number, here, many, why⟩ :=
    number_of_prune chrono history named reliable.matched listed member
  -- no record comes after the one of the execution
  have last : (w.numbers location).length ≤ i + 1 := by
    by_contra more
    have bound : i + 1 < (w.numbers location).length := by omega
    have later : (w.numbers location)[i + 1] ∈ (w.numbers location).drop (i + 1) := by
      rw [List.mem_drop_iff_getElem]
      exact ⟨0, by omega, rfl⟩
    have above := lt_of_mem_drop (numbers_ascending reliable.in_order location) here _ later
    have inside : (w.numbers location)[i + 1] ∈ w.log.filterMap (·.2) :=
      (List.filter_sublist.filterMap _).subset (List.getElem_mem _)
    have below := reliable.latest _ taken _ inside
    omega
  rcases why with behind | ⟨millis, given, old⟩
  · omega
  · have unprotected : retention.minimum = 0 := by omega
    have young := reliable.unexpired unprotected millis given entry logged (by rw [number]; rfl)
      (number.trans taken.symm)
    omega

theorem kept_of_reliable (history : History id w) {position : Nat} (failures : List Bool)
    (here : w.running[position]? = some t)
    (reliable : ∀ retention ∈ t.policy.retention, ∀ location,
      w.store.world.repositories.get? t.policy.repository = some location →
        Reliable chrono w t retention location) :
    Kept w (w.enforce chrono position failures) t := by
  have named := history.named t (List.mem_of_getElem? here)
  rcases w.enforce_cases chrono position failures with
    same | ⟨policy, exec, number, d, found, same, deleted⟩
  · rw [same]
    exact Kept.of_same (fun _ => rfl) t
  · obtain rfl := Option.some.inj (found.symm.trans here)
    rw [same]
    rcases deleted with rfl | ⟨retention, location, given, registered, deletes⟩
    · apply Kept.of_same
      exact fun _ => rfl
    · have reliable := reliable retention given location registered
      have stays {s : RepositorySnapshot} (listed : s ∈ w.store.world.snapshotsAt location)
          (spared : s.name ∉ w.store.prune chrono policy retention location) :
          s ∈ d.world.snapshotsAt location :=
        deletes.spared.subset (List.mem_filter.mpr ⟨listed, decide_eq_true spared⟩)
      constructor
      · intro other s listed gone
        by_cases at_location : other = location
        · subst at_location
          constructor
          · have pruned : s.name ∈ w.store.prune chrono policy retention other := by
              by_contra spared
              exact gone (stays listed spared)
            obtain ⟨-, entry, logged, number, -⟩ :=
              number_of_prune chrono history named reliable.matched listed pruned
            exact history.log_own entry logged _ number
          · exact registered
        · rw [deletes.elsewhere other at_location] at gone
          exact absurd listed gone
      · intro retention' given' limited other s listed taken
        obtain rfl : retention = retention' := Option.some.inj (given.symm.trans given')
        by_cases at_location : other = location
        · subst at_location
          exact stays listed (current_not_pruned chrono history named reliable limited listed taken)
        · rw [deletes.elsewhere other at_location]
          exact listed
      · intro retention' given' other
        obtain rfl : retention = retention' := Option.some.inj (given.symm.trans given')
        by_cases at_location : other = location
        · subst at_location
          apply List.Sublist.trans _ deletes.spared
          rw [← List.filter_eq_self.mpr fun s recent => decide_eq_true
            (recent_not_pruned chrono history named reliable recent)]
          exact ((List.drop_sublist _ _).trans List.filter_sublist).filter _
        · rw [deletes.elsewhere other at_location]
          exact (List.drop_sublist _ _).trans List.filter_sublist

/-- In every history, a retention pass over a log that it can go by deletes only snapshots of the
policy in its repository, keeps the snapshot of its own execution, and keeps the latest `min_count`. -/
theorem retention_kept {start : RetentionWorld T} (fresh : start.Fresh id)
    (events : List (RetentionEvent T id)) (position : Nat) (failures : List Bool)
    (here : (runEvents (RetentionWorld.step chrono) events start).running[position]? = some t)
    (reliable : ∀ retention ∈ t.policy.retention, ∀ location,
      (runEvents (RetentionWorld.step chrono) events start).store.world.repositories.get?
        t.policy.repository = some location →
          Reliable chrono (runEvents (RetentionWorld.step chrono) events start) t retention location) :
    Kept (runEvents (RetentionWorld.step chrono) events start)
      ((runEvents (RetentionWorld.step chrono) events start).step chrono
        (.enforce position failures : RetentionEvent T id)) t :=
  kept_of_reliable chrono (fresh.history.run chrono events) failures here reliable

end Keeping

section Daily

def dailyPolicy : SlmPolicy where
  name := "daily"
  schedule := "30 1 * * *"
  namePattern := "<daily-{now/d}>"
  repository := "repo"
  config := ⟨[], false⟩
  retention := some ⟨none, none, some 1⟩

def dailyStart : RetentionWorld Int where
  store := ⟨.empty, .singleton "repo" "/backups", .empty, 0, 1778932800000, "storage backend error"⟩
  running := []
  own := []
  log := []

theorem dailyStart_fresh : dailyStart.Fresh "daily" :=
  ⟨rfl, rfl, rfl, rfl, fun _ => .nil, fun _ _ member => absurd member List.not_mem_nil⟩

def takeDaily (fireTime : Int) : List (RetentionEvent Int "daily") :=
  [.pass fireTime "", .take dailyPolicy rfl fireTime [], .record 0]

def dailyTaken (snapshotName : String) (number : Nat) (at_millis : Int) : TakenSnapshot where
  policy := dailyPolicy
  exec := ⟨snapshotName, .success, at_millis, at_millis, none⟩
  number := some number
  recorded := true

def twoDays : List (RetentionEvent Int "daily") :=
  takeDaily 1778932800000 ++ .enforce 0 [] :: takeDaily 1779019200000

theorem retention_kept_two_days :
    Kept (runEvents (RetentionWorld.step gregorian) twoDays dailyStart)
      ((runEvents (RetentionWorld.step gregorian) twoDays dailyStart).step gregorian
        (.enforce 0 [] : RetentionEvent Int "daily"))
      (dailyTaken "daily-20260517" 1 1779019200000) := by
  apply retention_kept gregorian dailyStart_fresh twoDays 0 []
  · decide +kernel
  · intro retention given location registered
    obtain rfl : location = "/backups" := by
      have found : (runEvents (RetentionWorld.step gregorian) twoDays
        dailyStart).store.world.repositories.get? "repo" = some "/backups" := by decide +kernel
      exact Option.some.inj (registered.symm.trans found)
    constructor
    · unfold RetentionWorld.Matched
      decide +kernel
    · decide +kernel
    · decide +kernel
    · intro _ millis limited
      cases given
      cases limited

def sameName : List (RetentionEvent Int "daily") :=
  takeDaily 1778932800000 ++
    [.enforce 0 [], .delete "/backups" "daily-20260516"] ++ takeDaily 1778936400000

/-- With two records of one name the new snapshot is one too many, and goes. -/
theorem not_retention_kept : ¬ ∀ (events : List (RetentionEvent Int "daily")) (position : Nat)
    (failures : List Bool) (t : TakenSnapshot),
    (runEvents (RetentionWorld.step gregorian) events dailyStart).running[position]? = some t →
      Kept (runEvents (RetentionWorld.step gregorian) events dailyStart)
        ((runEvents (RetentionWorld.step gregorian) events dailyStart).step gregorian
          (.enforce position failures : RetentionEvent Int "daily")) t := by
  intro always
  have kept := always sameName 0 [] (dailyTaken "daily-20260516" 1 1778936400000) (by decide +kernel)
  have stays := kept.current ⟨none, none, some 1⟩ rfl (by decide) "/backups" ⟨"daily-20260516", 1⟩
    (by decide +kernel) rfl
  exact absurd stays (by decide +kernel)

end Daily

end Surch.Slm
