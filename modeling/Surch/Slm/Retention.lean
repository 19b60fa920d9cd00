import Mathlib.Data.List.Dedup
import Surch.Slm.Scheduler

/-! What one retention pass deletes: the names it picks from the log, and the snapshots that go with
them. -/
namespace Surch.Slm
open Surch.Lib

section Names

variable {retention : SlmRetention} {successful : List SlmExecution} {cutoff : Int} {name : String}

@[simp] theorem mem_toSet (names : List String) : name ∈ toSet names ↔ name ∈ names := by
  rw [toSet, List.mem_dedup, List.mem_insertionSort]

theorem mem_take_map {keep : Nat}
    (member : name ∈ (successful.take (successful.length - keep)).map (·.snapshotName)) :
    ∃ (i : Nat) (e : SlmExecution), successful[i]? = some e ∧ e.snapshotName = name ∧
      i + keep < successful.length := by
  obtain ⟨e, taken, named⟩ := List.mem_map.mp member
  obtain ⟨i, inside, at_i⟩ := List.mem_iff_getElem.mp taken
  rw [List.length_take] at inside
  rw [List.getElem_take] at at_i
  exact ⟨i, e, List.getElem?_eq_some_iff.mpr ⟨by omega, at_i⟩, named, by omega⟩

theorem mem_surplus (member : name ∈ retention.surplus successful) :
    ∃ (i : Nat) (e : SlmExecution), successful[i]? = some e ∧ e.snapshotName = name ∧
      i + max (retention.maxCount.getD 0) retention.minimum < successful.length := by
  rw [SlmRetention.surplus] at member
  split at member
  · cases member
  · rename_i maxCount limited
    rw [limited]
    exact mem_take_map member

theorem mem_expired (member : name ∈ retention.expired successful cutoff) :
    ∃ (i : Nat) (e : SlmExecution), successful[i]? = some e ∧ e.snapshotName = name ∧
      i + retention.minimum < successful.length ∧ e.finishedAtMillis ≤ cutoff := by
  obtain ⟨e, old, named⟩ := List.mem_map.mp member
  obtain ⟨taken, at_most⟩ := List.mem_filter.mp old
  obtain ⟨i, inside, at_i⟩ := List.mem_iff_getElem.mp taken
  rw [List.length_take] at inside
  rw [List.getElem_take] at at_i
  exact ⟨i, e, List.getElem?_eq_some_iff.mpr ⟨by omega, at_i⟩, named, by omega,
    of_decide_eq_true at_most⟩

end Names

section Deletion

variable {T : Type} {location repoName : String} {names : List String} {d d' d'' : SlmStore T}

/- At most the snapshots of these names at one location are gone, and nothing else has changed. -/
structure Deletes (location : String) (names : List String) (d d' : SlmStore T) : Prop where
  policies : d'.policies = d.policies
  repositories : d'.world.repositories = d.world.repositories
  created : d'.world.created = d.world.created
  clock : d'.world.clock = d.world.clock
  elsewhere : ∀ other, other ≠ location → d'.world.snapshotsAt other = d.world.snapshotsAt other
  remaining : (d'.world.snapshotsAt location).Sublist (d.world.snapshotsAt location)
  spared : ((d.world.snapshotsAt location).filter fun s => s.name ∉ names).Sublist
    (d'.world.snapshotsAt location)

theorem Deletes.refl (location : String) (names : List String) (d : SlmStore T) :
    Deletes location names d d := by
  constructor
  · rfl
  · rfl
  · rfl
  · rfl
  · exact fun _ _ => rfl
  · exact List.Sublist.refl _
  · exact List.filter_sublist

theorem Deletes.trans (first : Deletes location names d d') (second : Deletes location names d' d'') :
    Deletes location names d d'' := by
  constructor
  · exact second.policies.trans first.policies
  · exact second.repositories.trans first.repositories
  · exact second.created.trans first.created
  · exact second.clock.trans first.clock
  · exact fun other apart => (second.elsewhere other apart).trans (first.elsewhere other apart)
  · exact second.remaining.trans first.remaining
  · have kept := first.spared.filter fun s => decide (s.name ∉ names)
    rw [List.filter_filter] at kept
    simp only [Bool.and_self] at kept
    exact kept.trans second.spared

theorem ne_of_mem_eraseP {name : String} {snapshots : List RepositorySnapshot}
    (distinct : (snapshots.map (·.name)).Nodup) {s : RepositorySnapshot}
    (member : s ∈ snapshots.eraseP fun s => s.name = name) : s.name ≠ name := by
  induction snapshots with
  | nil => cases member
  | cons first snapshots ih =>
    obtain ⟨fresh, distinct⟩ := List.nodup_cons.mp distinct
    by_cases here : first.name = name
    · rw [List.eraseP_cons_of_pos (by simpa using here)] at member
      rintro rfl
      exact fresh (List.mem_map.mpr ⟨s, member, here.symm⟩)
    · rw [List.eraseP_cons_of_neg (by simpa using here)] at member
      rcases List.mem_cons.mp member with rfl | later
      · exact here
      · exact ih distinct later

theorem deleteSnapshot_deletes (repoName : String) (failed : Bool) {name : String}
    (member : name ∈ names) :
    Deletes location names d (SlmStore.serve failed (.deleteSnapshot location repoName name) d).2 := by
  simp only [SlmStore.serve, Surroundings.deleteSnapshot]
  split
  · exact Deletes.refl _ _ _
  · split
    · exact Deletes.refl _ _ _
    · constructor
      · rfl
      · rfl
      · rfl
      · rfl
      · intro other apart
        simp [apart]
      · simp only [Surroundings.snapshotsAt_setSnapshots, if_true]
        exact List.eraseP_sublist
      · simp only [Surroundings.snapshotsAt_setSnapshots, if_true]
        -- the one that is erased has the name
        have kept : ((d.world.snapshotsAt location).filter fun s => s.name ∉ names).eraseP
            (fun s => s.name = name) = (d.world.snapshotsAt location).filter fun s => s.name ∉ names := by
          apply List.eraseP_of_forall_not
          intro s inside named
          have spared := (List.mem_filter.mp inside).2
          exact of_decide_eq_true spared (of_decide_eq_true named ▸ member)
        rw [← kept]
        exact List.Sublist.eraseP List.filter_sublist

theorem deleteAll_deletes {rest : List String} (members : ∀ name ∈ rest, name ∈ names) :
    Program.Keeps SlmStore.serve true (fun _ _ => True) (fun _ d' => Deletes location names d d')
      (deleteAll location repoName rest) d := by
  induction rest generalizing d with
  | nil => exact Deletes.refl _ _ _
  | cons name rest ih =>
    constructor
    · trivial
    · intro failed _
      have first : Deletes location names d _ := deleteSnapshot_deletes repoName failed
        (members name List.mem_cons_self)
      apply Program.Keeps.mono (ih fun name member => members name (List.mem_cons_of_mem _ member))
      exact fun _ _ second => first.trans second

theorem deleteAll_gone {rest : List String}
    (distinct : ((d.world.snapshotsAt location).map (·.name)).Nodup) :
    Program.Keeps SlmStore.serve false (fun _ _ => True)
      (fun _ d' => (d'.world.snapshotsAt location).Sublist (d.world.snapshotsAt location) ∧
        ∀ s ∈ d'.world.snapshotsAt location, s.name ∉ rest)
      (deleteAll location repoName rest) d := by
  induction rest generalizing d with
  | nil => exact ⟨List.Sublist.refl _, fun _ _ => List.not_mem_nil⟩
  | cons name rest ih =>
    constructor
    · trivial
    · intro failed mild
      have served : failed = false := by
        cases failed with
        | false => rfl
        | true => cases mild rfl
      subst served
      have deletes : Deletes location [name] d
          (SlmStore.serve false (.deleteSnapshot location repoName name) d).2 :=
        deleteSnapshot_deletes repoName false (List.mem_singleton_self name)
      have gone : ∀ s ∈ (SlmStore.serve false (.deleteSnapshot location repoName name)
          d).2.world.snapshotsAt location, s.name ≠ name := by
        simp only [SlmStore.serve, Surroundings.deleteSnapshot]
        split
        · rename_i absent
          intro s member
          exact of_decide_eq_true (List.all_eq_true.mp absent s member)
        · simp only [Bool.false_eq_true, if_false, Surroundings.snapshotsAt_setSnapshots, if_true]
          intro s member
          exact ne_of_mem_eraseP distinct member
      have distinct' := (deletes.remaining.map (·.name)).nodup distinct
      apply Program.Keeps.mono (ih distinct')
      rintro _ d' ⟨sublist, others⟩
      constructor
      · exact sublist.trans deletes.remaining
      · intro s member
        rw [List.mem_cons, not_or]
        exact ⟨gone s (sublist.subset member), others s member⟩

end Deletion

section Enforcement

variable {T : Type} (chrono : Chrono T) {policy : SlmPolicy} {retention : SlmRetention}
  {location : String} {d : SlmStore T}

/- The executions of the policy whose snapshot is still at the location. -/
def SlmStore.successful (d : SlmStore T) (name location : String) : List SlmExecution :=
  stillThere ((d.world.snapshotsAt location).map (·.name)) (d.policies.executionsOf name)

def SlmStore.prune (d : SlmStore T) (policy : SlmPolicy) (retention : SlmRetention)
    (location : String) : List String :=
  retention.surplus (d.successful policy.name location) ++
    match retention.expireAfter.bind parseRetentionDurationMillis with
    | none => []
    | some millis => retention.expired (d.successful policy.name location)
      (chrono.timestampMillis d.world.clock - millis)

/-- Without a retention, or without the repository, nothing is deleted. -/
theorem enforce_nothing {faults : Bool}
    (missing : policy.retention = none ∨ d.world.repositories.get? policy.repository = none) :
    Program.Keeps SlmStore.serve faults (fun _ _ => True) (fun _ d' => d' = d)
      (enforceMaxCountRetention chrono policy) d := by
  rw [enforceMaxCountRetention]
  rcases missing with absent | absent
  · rw [absent]
    rfl
  · split
    · rfl
    · constructor
      · trivial
      · intro failed _
        simp only [SlmStore.serve, absent]
        rfl

/-- What a retention pass deletes is decided in the state that it finds. -/
theorem enforce_keeps {faults : Bool} {post : SlmStore T → Prop}
    (given : policy.retention = some retention)
    (registered : d.world.repositories.get? policy.repository = some location)
    (unlisted : faults = true → post d)
    (pruned : Program.Keeps SlmStore.serve faults (fun _ _ => True) (fun _ d' => post d')
      (deleteAll location policy.repository (toSet (d.prune chrono policy retention location))) d) :
    Program.Keeps SlmStore.serve faults (fun _ _ => True) (fun _ d' => post d')
      (enforceMaxCountRetention chrono policy) d := by
  rw [enforceMaxCountRetention, given]
  constructor
  · trivial
  · intro failed _
    simp only [SlmStore.serve, registered]
    constructor
    · trivial
    · intro failed mild
      cases failed with
      | true => exact unlisted (mild rfl)
      | false =>
        constructor
        · trivial
        · intro failed _
          unfold SlmStore.prune at pruned
          cases limit : retention.expireAfter.bind parseRetentionDurationMillis with
          | none =>
            simp only [limit] at pruned
            simp only [SlmStore.serve, expiredNames, limit]
            exact pruned
          | some millis =>
            simp only [limit] at pruned
            simp only [SlmStore.serve, expiredNames, limit]
            constructor
            · trivial
            · exact fun _ _ => pruned

theorem enforce_deletes (given : policy.retention = some retention)
    (registered : d.world.repositories.get? policy.repository = some location) :
    Program.Keeps SlmStore.serve true (fun _ _ => True)
      (fun _ d' => Deletes location (d.prune chrono policy retention location) d d')
      (enforceMaxCountRetention chrono policy) d := by
  apply enforce_keeps chrono given registered
  · exact fun _ => Deletes.refl _ _ _
  · exact deleteAll_deletes fun name member => (mem_toSet _).mp member

theorem enforce_gone (given : policy.retention = some retention)
    (registered : d.world.repositories.get? policy.repository = some location)
    (distinct : ((d.world.snapshotsAt location).map (·.name)).Nodup) :
    Program.Keeps SlmStore.serve false (fun _ _ => True)
      (fun _ d' => (d'.world.snapshotsAt location).Sublist (d.world.snapshotsAt location) ∧
        ∀ s ∈ d'.world.snapshotsAt location, s.name ∉ d.prune chrono policy retention location)
      (enforceMaxCountRetention chrono policy) d := by
  apply enforce_keeps chrono given registered
  · exact nofun
  · apply Program.Keeps.mono (deleteAll_gone distinct)
    rintro _ d' ⟨sublist, others⟩
    constructor
    · exact sublist
    · exact fun s member named => others s member ((mem_toSet _).mpr named)

end Enforcement

end Surch.Slm
