import Surch.Lib.Runs
import Surch.Slm.Retention

/-! The history of one policy: its executions, side by side and with anything else that happens to the
registry, the repositories and their snapshots between two of their steps. -/
namespace Surch.Slm
open Surch.Lib

section World

variable {T : Type}

/- An execution under way, with the number of the snapshot that it took. -/
structure TakenSnapshot where
  policy : SlmPolicy
  exec : SlmExecution
  number : Option Nat
  recorded : Bool
deriving DecidableEq

/- `own` are the numbers of all snapshots that the policy has ever taken, and `log` is its execution log
with the number of each snapshot. -/
structure RetentionWorld (T : Type) where
  store : SlmStore T
  running : List TakenSnapshot
  own : List Nat
  log : List (SlmExecution × Option Nat)

/- `take` runs an execution up to its record, `record` writes the record and `enforce` is the retention
pass; the policy is any version that the caller had read. The snapshots of other policies are created and
deleted like manual ones. -/
inductive RetentionEvent (T : Type) (id : String) where
  | take (policy : SlmPolicy) (named : policy.name = id) (fireTime : T) (failures : List Bool)
  | record (position : Nat)
  | enforce (position : Nat) (failures : List Bool)
  | put (policy : SlmPolicy)
  | remove
  | create (location snapName : String)
  | delete (location snapName : String)
  | register (repoName location : String)
  | unregister (repoName : String)
  | pass (clock : T) (failure : String)

namespace RetentionWorld

variable (chrono : Chrono T) {id : String} (w : RetentionWorld T)

def setWorld (world : Surroundings T) : RetentionWorld T :=
  { w with store := { w.store with world } }

def take (policy : SlmPolicy) (fireTime : T) (failures : List Bool) : RetentionWorld T :=
  let taken := Program.complete SlmStore.serve failures (takeSnapshot chrono policy fireTime) w.store
  let number := if taken.1.state = .success then some w.store.world.created else none
  { w with
    store := taken.2
    running := w.running ++ [⟨policy, taken.1, number, false⟩]
    own := w.own ++ number.toList }

def record (id : String) (position : Nat) : RetentionWorld T :=
  match w.running[position]? with
  | some ⟨policy, exec, number, false⟩ =>
    { w with
      store := (SlmStore.serve false (.recordExecution id exec) w.store).2
      running := match exec.state with
        | .success => w.running.set position ⟨policy, exec, number, true⟩
        | .failed => w.running.eraseIdx position
      log := pushBounded w.log (exec, number) }
  | _ => w

def enforce (position : Nat) (failures : List Bool) : RetentionWorld T :=
  match w.running[position]? with
  | some ⟨policy, _, _, true⟩ =>
    { w with
      store := (Program.complete SlmStore.serve failures (enforceMaxCountRetention chrono policy)
        w.store).2
      running := w.running.eraseIdx position }
  | _ => w

def step (w : RetentionWorld T) : RetentionEvent T id → RetentionWorld T
  | .take policy _ fireTime failures => w.take chrono policy fireTime failures
  | .record position => w.record id position
  | .enforce position failures => w.enforce chrono position failures
  | .put policy => { w with store := (SlmStore.serve false (.upsert policy) w.store).2 }
  | .remove => { w with store := (SlmStore.serve false (.remove id) w.store).2, log := [] }
  | .create location snapName => w.setWorld (w.store.world.createSnapshot false location "" snapName).2
  | .delete location snapName => w.setWorld (w.store.world.deleteSnapshot false location "" snapName).2
  | .register repoName location => w.setWorld { w.store.world with
      repositories := w.store.world.repositories.upsert repoName fun _ => location }
  | .unregister repoName => w.setWorld { w.store.world with
      repositories := w.store.world.repositories.erase repoName }
  | .pass clock failure => w.setWorld { w.store.world with clock, failure }

def mine (location : String) : List RepositorySnapshot :=
  (w.store.world.snapshotsAt location).filter fun s => s.number ∈ w.own

/- A process that has just started, over repositories with the snapshots of its predecessors. -/
structure Fresh (id : String) : Prop where
  running : w.running = []
  own : w.own = []
  log : w.log = []
  executions : w.store.policies.executionsOf id = []
  ascending : ∀ location, ((w.store.world.snapshotsAt location).map (·.number)).Pairwise (· < ·)
  below : ∀ location, ∀ s ∈ w.store.world.snapshotsAt location, s.number < w.store.world.created

end RetentionWorld

end World

section Surroundings

variable {T : Type} {world world' : Surroundings T}

/- At every location the snapshots stand in the order in which their numbers were drawn. -/
structure Surroundings.Ordered (world : Surroundings T) : Prop where
  ascending : ∀ location, ((world.snapshotsAt location).map (·.number)).Pairwise (· < ·)
  below : ∀ location, ∀ s ∈ world.snapshotsAt location, s.number < world.created

theorem createSnapshot_cases (world : Surroundings T) (failed : Bool)
    (location repoName snapName : String) :
    (∃ message, world.createSnapshot failed location repoName snapName = (.error message, world)) ∨
    ((∀ s ∈ world.snapshotsAt location, s.name ≠ snapName) ∧
      (world.createSnapshot failed location repoName snapName).1 = .ok ⟨snapName, world.created⟩ ∧
      (world.createSnapshot failed location repoName snapName).2 =
        { world.setSnapshots location (world.snapshotsAt location ++ [⟨snapName, world.created⟩]) with
          created := world.created + 1 }) := by
  rw [Surroundings.createSnapshot]
  split
  · exact .inl ⟨_, rfl⟩
  · rename_i free
    split
    · exact .inl ⟨_, rfl⟩
    · right
      constructor
      · intro s member named
        exact free (List.any_eq_true.mpr ⟨s, member, decide_eq_true named⟩)
      · exact ⟨rfl, rfl⟩

@[simp] theorem snapshotsAt_created (location other : String) (snapshots : List RepositorySnapshot)
    (created : Nat) :
    ({ world.setSnapshots location snapshots with created } : Surroundings T).snapshotsAt other =
      if other = location then snapshots else world.snapshotsAt other :=
  world.snapshotsAt_setSnapshots location other snapshots

theorem Surroundings.Ordered.append (ordered : world.Ordered) (location snapName : String) :
    ({ world.setSnapshots location (world.snapshotsAt location ++ [⟨snapName, world.created⟩]) with
      created := world.created + 1 } : Surroundings T).Ordered := by
  constructor
  · intro other
    rw [snapshotsAt_created]
    split
    · rw [List.map_append, List.pairwise_append]
      constructor
      · exact ordered.ascending location
      · constructor
        · exact List.pairwise_singleton _ _
        · intro n old m new
          obtain ⟨s, member, rfl⟩ := List.mem_map.mp old
          obtain rfl := List.mem_singleton.mp new
          exact ordered.below location s member
    · exact ordered.ascending other
  · intro other s member
    rw [snapshotsAt_created] at member
    apply Nat.lt_succ_iff.mpr
    split at member
    · rcases List.mem_append.mp member with old | new
      · exact (ordered.below location s old).le
      · obtain rfl := List.mem_singleton.mp new
        exact le_refl _
    · exact (ordered.below other s member).le

theorem Surroundings.Ordered.create (ordered : world.Ordered) (failed : Bool)
    (location repoName snapName : String) :
    (world.createSnapshot failed location repoName snapName).2.Ordered := by
  rcases createSnapshot_cases world failed location repoName snapName with
    ⟨message, same⟩ | ⟨-, -, created⟩
  · rw [same]
    exact ordered
  · rw [created]
    exact ordered.append location snapName

theorem Surroundings.Ordered.sublist (ordered : world.Ordered)
    (created : world'.created = world.created)
    (sublist : ∀ location, (world'.snapshotsAt location).Sublist (world.snapshotsAt location)) :
    world'.Ordered := by
  constructor
  · intro location
    exact (ordered.ascending location).sublist ((sublist location).map _)
  · intro location s member
    rw [created]
    exact ordered.below location s ((sublist location).subset member)

theorem deleteSnapshot_sublist (failed : Bool) (location repoName snapName other : String) :
    ((world.deleteSnapshot failed location repoName snapName).2.snapshotsAt other).Sublist
      (world.snapshotsAt other) := by
  rw [Surroundings.deleteSnapshot]
  split
  · exact List.Sublist.refl _
  · split
    · exact List.Sublist.refl _
    · rw [Surroundings.snapshotsAt_setSnapshots]
      split
      · rename_i here
        rw [here]
        exact List.eraseP_sublist
      · exact List.Sublist.refl _

@[simp] theorem created_deleteSnapshot (failed : Bool) (location repoName snapName : String) :
    (world.deleteSnapshot failed location repoName snapName).2.created = world.created := by
  rw [Surroundings.deleteSnapshot]
  split
  · rfl
  · split <;> rfl

@[simp] theorem repositories_deleteSnapshot (failed : Bool) (location repoName snapName : String) :
    (world.deleteSnapshot failed location repoName snapName).2.repositories = world.repositories := by
  rw [Surroundings.deleteSnapshot]
  split
  · rfl
  · split <;> rfl

theorem created_le_createSnapshot (failed : Bool) (location repoName snapName : String) :
    world.created ≤ (world.createSnapshot failed location repoName snapName).2.created := by
  rcases createSnapshot_cases world failed location repoName snapName with
    ⟨message, same⟩ | ⟨-, -, created⟩
  · rw [same]
  · rw [created]
    exact Nat.le_succ _

end Surroundings

section Executions

variable {T : Type} (chrono : Chrono T)

/- How the first part of an execution can go: with a new snapshot, or with nothing done. -/
inductive Takes (policy : SlmPolicy) (d : SlmStore T) (exec : SlmExecution) (d' : SlmStore T) : Prop
  | failed (state : exec.state = .failed) (same : d' = d)
  | success (location : String)
    (registered : d.world.repositories.get? policy.repository = some location)
    (state : exec.state = .success)
    (free : ∀ s ∈ d.world.snapshotsAt location, s.name ≠ exec.snapshotName)
    (same : d' = { d with world := { d.world.setSnapshots location
      (d.world.snapshotsAt location ++ [⟨exec.snapshotName, d.world.created⟩]) with
        created := d.world.created + 1 } })

theorem takeSnapshot_takes (policy : SlmPolicy) (fireTime : T) (d : SlmStore T) :
    Program.Keeps SlmStore.serve true (fun _ _ => True) (Takes policy d)
      (takeSnapshot chrono policy fireTime) d := by
  constructor
  · trivial
  · intro failed _
    constructor
    · trivial
    · intro failed _
      simp only [SlmStore.serve]
      cases registered : d.world.repositories.get? policy.repository with
      | none =>
        constructor
        · trivial
        · exact fun _ _ => .failed rfl rfl
      | some location =>
        constructor
        · trivial
        · intro failed _
          constructor
          · trivial
          · intro _ _
            rcases createSnapshot_cases d.world failed location policy.repository
              (expandNamePattern policy.namePattern (chrono.formatYmd fireTime)) with
              ⟨message, same⟩ | ⟨free, answer, created⟩
            · simp only [SlmStore.serve, same]
              exact .failed rfl rfl
            · simp only [SlmStore.serve, answer, created]
              exact .success location registered rfl free rfl

theorem RetentionWorld.take_cases (w : RetentionWorld T) (policy : SlmPolicy) (fireTime : T)
    (failures : List Bool) :
    (∃ exec : SlmExecution, exec.state = .failed ∧
      w.take chrono policy fireTime failures =
        { w with running := w.running ++ [⟨policy, exec, none, false⟩] }) ∨
    ∃ (exec : SlmExecution) (location : String),
      w.store.world.repositories.get? policy.repository = some location ∧ exec.state = .success ∧
      (∀ s ∈ w.store.world.snapshotsAt location, s.name ≠ exec.snapshotName) ∧
      w.take chrono policy fireTime failures =
        { w with
          store := { w.store with world := { w.store.world.setSnapshots location
            (w.store.world.snapshotsAt location ++ [⟨exec.snapshotName, w.store.world.created⟩]) with
              created := w.store.world.created + 1 } }
          running := w.running ++ [⟨policy, exec, some w.store.world.created, false⟩]
          own := w.own ++ [w.store.world.created] } := by
  have takes : Takes policy w.store
      (Program.complete SlmStore.serve failures (takeSnapshot chrono policy fireTime) w.store).1
      (Program.complete SlmStore.serve failures (takeSnapshot chrono policy fireTime) w.store).2 :=
    (takeSnapshot_takes chrono policy fireTime w.store).complete fun _ => rfl
  unfold RetentionWorld.take
  generalize Program.complete SlmStore.serve failures (takeSnapshot chrono policy fireTime) w.store =
    taken at takes
  obtain ⟨exec, d⟩ := taken
  cases takes with
  | failed state same =>
    left
    refine ⟨exec, state, ?_⟩
    dsimp only at state same ⊢
    rw [state, same]
    simp
  | success location registered state free same =>
    right
    refine ⟨exec, location, registered, state, free, ?_⟩
    dsimp only at state same ⊢
    rw [state, same]
    simp

end Executions

end Surch.Slm
