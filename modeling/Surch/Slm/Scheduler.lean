import Surch.Lib.Program
import Surch.Slm.Cron
import Surch.Slm.Policy

/-! The scheduler's tick, the execution of a policy with its retention, and the handlers of the policy
routes, as the calls they make on the registry and on the snapshot repositories. -/
namespace Surch.Slm
open Surch.Lib

variable {T : Type}

section Store

/- A snapshot as `list_snapshots` shows it; the number stands for the uuid that its creation drew. -/
structure RepositorySnapshot where
  name : String
  number : Nat
deriving DecidableEq

/- What lies outside the registry: the repositories by their location, the snapshots at each location in
the order of their creation, the clock, and what a failing call says. -/
structure Surroundings (T : Type) where
  repositories : SortedMap String String
  snapshots : SortedMap String (List RepositorySnapshot)
  created : Nat
  clock : T
  failure : String

namespace Surroundings

variable (world : Surroundings T)

def snapshotsAt (location : String) : List RepositorySnapshot :=
  (world.snapshots.get? location).getD []

def setSnapshots (location : String) (snapshots : List RepositorySnapshot) : Surroundings T :=
  { world with snapshots := world.snapshots.upsert location fun _ => snapshots }

def createSnapshot (failed : Bool) (location repoName snapName : String) :
    Except String RepositorySnapshot × Surroundings T :=
  if (world.snapshotsAt location).any fun s => s.name = snapName then
    (.error ("snapshot [" ++ repoName ++ ":" ++ snapName ++ "] already exists"), world)
  else if failed then (.error world.failure, world)
  else
    let snapshot : RepositorySnapshot := ⟨snapName, world.created⟩
    (.ok snapshot, { world.setSnapshots location (world.snapshotsAt location ++ [snapshot]) with
      created := world.created + 1 })

def deleteSnapshot (failed : Bool) (location repoName snapName : String) :
    Except String Unit × Surroundings T :=
  if (world.snapshotsAt location).all fun s => s.name ≠ snapName then
    (.error ("snapshot [" ++ repoName ++ ":" ++ snapName ++ "] missing"), world)
  else if failed then (.error world.failure, world)
  else (.ok (), world.setSnapshots location
    ((world.snapshotsAt location).eraseP fun s => s.name = snapName))

@[simp] theorem snapshotsAt_setSnapshots (location other : String)
    (snapshots : List RepositorySnapshot) :
    (world.setSnapshots location snapshots).snapshotsAt other =
      if other = location then snapshots else world.snapshotsAt other := by
  simp only [snapshotsAt, setSnapshots, SortedMap.get?_upsert]
  split <;> rfl

end Surroundings

structure SlmStore (T : Type) where
  policies : SlmPolicyRegistry T
  world : Surroundings T

end Store

section Requests

/- A location is what a caller keeps of a repository once it has looked it up. `elsewhere` is what the
rest of the process, the operators and the time do to the world. -/
inductive SlmRequest (T : Type) where
  | now
  | get (name : String)
  | upsert (policy : SlmPolicy)
  | remove (name : String)
  | recordExecution (name : String) (exec : SlmExecution)
  | executions (name : String)
  | lastExecution (name : String)
  | setNextFire (name : String) (next : Option T)
  | snapshotForScheduling
  | getRepository (name : String)
  | createSnapshot (location repoName snapName : String) (config : SlmConfig)
  | listSnapshots (location : String)
  | deleteSnapshot (location repoName snapName : String)
  | elsewhere (world : Surroundings T)

def SlmAnswer : SlmRequest T → Type
  | .now => T
  | .get _ => Option SlmPolicy
  | .upsert _ => Unit
  | .remove _ => Bool
  | .recordExecution _ _ => Unit
  | .executions _ => List SlmExecution
  | .lastExecution _ => Option SlmExecution
  | .setNextFire _ _ => Unit
  | .snapshotForScheduling => List (SlmPolicy × Option T)
  | .getRepository _ => Option String
  | .createSnapshot _ _ _ _ => Except String RepositorySnapshot
  | .listSnapshots _ => Except String (List RepositorySnapshot)
  | .deleteSnapshot _ _ _ => Except String Unit
  | .elsewhere _ => Unit

/- Only the calls on a repository can fail. -/
def SlmStore.serve (failed : Bool) : (q : SlmRequest T) → SlmStore T → SlmAnswer q × SlmStore T
  | .now, d => (d.world.clock, d)
  | .get name, d => (d.policies.get name, d)
  | .upsert policy, d => ((), { d with policies := d.policies.upsert policy })
  | .remove name, d => ((d.policies.remove name).1, { d with policies := (d.policies.remove name).2 })
  | .recordExecution name exec, d =>
    ((), { d with policies := d.policies.recordExecution name exec })
  | .executions name, d => (d.policies.executionsOf name, d)
  | .lastExecution name, d => (d.policies.lastExecution name, d)
  | .setNextFire name next, d => ((), { d with policies := d.policies.setNextFire name next })
  | .snapshotForScheduling, d => (d.policies.snapshotForScheduling, d)
  | .getRepository name, d => (d.world.repositories.get? name, d)
  | .createSnapshot location repoName snapName _, d =>
    let answer := d.world.createSnapshot failed location repoName snapName
    (answer.1, { d with world := answer.2 })
  | .listSnapshots location, d =>
    (if failed then .error d.world.failure else .ok (d.world.snapshotsAt location), d)
  | .deleteSnapshot location repoName snapName, d =>
    let answer := d.world.deleteSnapshot failed location repoName snapName
    (answer.1, { d with world := answer.2 })
  | .elsewhere world, d => ((), { d with world })

abbrev SlmProgram (T : Type) (α : Type) := Program (SlmRequest T) SlmAnswer α

def ask (q : SlmRequest T) : SlmProgram T (SlmAnswer q) := Program.request q

end Requests

section Retention

def parseI64 : List Char → Option Int
  | '-' :: '+' :: _ => none
  | '-' :: digits => (parseUnsigned (2 ^ 63 + 1) digits).map fun n => -(n : Int)
  | text => (parseUnsigned (2 ^ 63) text).map Int.ofNat

def stripSuffix (suffix text : List Char) : Option (List Char) :=
  if suffix.isSuffixOf text then some (text.take (text.length - suffix.length)) else none

/- `checked_mul` on `i64`, of a quantity that is not negative. -/
def checkedMillis (quantity multiplier : Int) : Option Int :=
  if quantity < 0 then none
  else if quantity * multiplier < 2 ^ 63 then some (quantity * multiplier)
  else none

def durationSuffixes : List (String × Int) :=
  [("ms", 1), ("s", 1000), ("m", 60000), ("h", 3600000), ("d", 86400000)]

def parseRetentionDurationMillis (value : String) : Option Int := do
  let text := trim value.toList
  let (suffix, multiplier) ← durationSuffixes.find? fun entry =>
    (stripSuffix entry.1.toList text).isSome
  let number ← stripSuffix suffix.toList text
  let quantity ← parseI64 number
  checkedMillis quantity multiplier

example : parseRetentionDurationMillis " 30d" = some 2592000000 ∧
    parseRetentionDurationMillis "15ms" = some 15 ∧ parseRetentionDurationMillis "1w" = none := by
  decide +kernel

def SlmRetention.minimum (retention : SlmRetention) : Nat := retention.minCount.getD 0

def stillThere (existing : List String) (executions : List SlmExecution) : List SlmExecution :=
  (executions.filter fun e => e.state = .success).filter fun e => e.snapshotName ∈ existing

def SlmRetention.surplus (retention : SlmRetention) (successful : List SlmExecution) : List String :=
  match retention.maxCount with
  | none => []
  | some maxCount =>
    (successful.take (successful.length - max maxCount retention.minimum)).map (·.snapshotName)

def SlmRetention.expired (retention : SlmRetention) (successful : List SlmExecution) (cutoff : Int) :
    List String :=
  ((successful.take (successful.length - retention.minimum)).filter fun e =>
    e.finishedAtMillis ≤ cutoff).map (·.snapshotName)

def toSet (names : List String) : List String := (names.insertionSort (· ≤ ·)).dedup

def deleteAll (location repoName : String) : List String → SlmProgram T Unit
  | [] => return ()
  | name :: names => do
    let _ ← ask (.deleteSnapshot location repoName name)
    deleteAll location repoName names

variable (chrono : Chrono T)

def expiredNames (retention : SlmRetention) (successful : List SlmExecution) :
    SlmProgram T (List String) :=
  match retention.expireAfter.bind parseRetentionDurationMillis with
  | none => return []
  | some expireAfterMillis => do
    let now ← ask .now
    return retention.expired successful (chrono.timestampMillis now - expireAfterMillis)

def enforceMaxCountRetention (policy : SlmPolicy) : SlmProgram T Unit :=
  match policy.retention with
  | none => return ()
  | some retention => do
    match ← ask (.getRepository policy.repository) with
    | none => return ()
    | some location =>
      match ← ask (.listSnapshots location) with
      | .error _ => return ()
      | .ok snapshots => do
        let executions ← ask (.executions policy.name)
        let successful := stillThere (snapshots.map (·.name)) executions
        let expired ← expiredNames chrono retention successful
        deleteAll location policy.repository (toSet (retention.surplus successful ++ expired))

end Retention

section Execution

variable (chrono : Chrono T)

def takeSnapshot (policy : SlmPolicy) (fireTime : T) : SlmProgram T SlmExecution := do
  let snapshotName := expandNamePattern policy.namePattern (chrono.formatYmd fireTime)
  let started ← ask .now
  match ← ask (.getRepository policy.repository) with
  | none => do
    let finished ← ask .now
    return {
      snapshotName
      state := .failed
      startedAtMillis := chrono.timestampMillis started
      finishedAtMillis := chrono.timestampMillis finished
      error := some ("repository [" ++ policy.repository ++ "] missing") }
  | some location => do
    let result ← ask (.createSnapshot location policy.repository snapshotName policy.config)
    let finished ← ask .now
    match result with
    | .ok entry => return {
        snapshotName := entry.name
        state := .success
        startedAtMillis := chrono.timestampMillis started
        finishedAtMillis := chrono.timestampMillis finished
        error := none }
    | .error err => return {
        snapshotName
        state := .failed
        startedAtMillis := chrono.timestampMillis started
        finishedAtMillis := chrono.timestampMillis finished
        error := some ("policy `" ++ policy.name ++ "`: " ++ err) }

def executePolicy (policy : SlmPolicy) (fireTime : T) : SlmProgram T SlmExecution := do
  let exec ← takeSnapshot chrono policy fireTime
  let _ ← ask (.recordExecution policy.name exec)
  match exec.state with
  | .success => do
    enforceMaxCountRetention chrono policy
    return exec
  | .failed => return exec

variable [LinearOrder T]

def dueFire (schedule : CronSchedule) (policy : SlmPolicy) (now : T) :
    Option T → SlmProgram T (Option T)
  | some fireAt => return some fireAt
  | none => do
    let last ← ask (.lastExecution policy.name)
    let anchor := (last.bind fun e => chrono.fromTimestampMillis e.finishedAtMillis).getD
      (chrono.plusSeconds now (-1))
    return schedule.nextFireAfter chrono anchor

def tickPolicy (now : T) (policy : SlmPolicy) (currentNextFire : Option T) : SlmProgram T Unit :=
  match CronSchedule.parse policy.schedule with
  | .error _ => ask (.setNextFire policy.name none)
  | .ok schedule => do
    match ← dueFire chrono schedule policy now currentNextFire with
    | none => ask (.setNextFire policy.name none)
    | some fireAt =>
      if now < fireAt then ask (.setNextFire policy.name (some fireAt))
      else do
        let _ ← executePolicy chrono policy now
        let later ← ask .now
        ask (.setNextFire policy.name (schedule.nextFireAfter chrono later))

def tickPolicies (now : T) : List (SlmPolicy × Option T) → SlmProgram T Unit
  | [] => return ()
  | (policy, currentNextFire) :: rest => do
    tickPolicy chrono now policy currentNextFire
    tickPolicies now rest

def runTick : SlmProgram T Unit := do
  let now ← ask .now
  let copied ← ask .snapshotForScheduling
  tickPolicies chrono now copied

end Execution

section Routes

variable (chrono : Chrono T) [LinearOrder T]

inductive SlmResponse where
  | acknowledged
  | badRequest (reason : String)
  | notFound (reason : String)
  | failed (reason : String)
  | snapshotName (name : String)
deriving DecidableEq

structure PutSlmPolicyRequest where
  schedule : String
  name : Option String
  repository : String
  config : SlmConfig
  retention : Option SlmRetention
deriving DecidableEq

def PutSlmPolicyRequest.policy (body : PutSlmPolicyRequest) (id : String) : SlmPolicy where
  name := id
  schedule := body.schedule
  namePattern := body.name.getD (id ++ "-\x7bnow/d\x7d")
  repository := body.repository
  config := body.config
  retention := body.retention

def putPolicyHandler (id : String) (body : PutSlmPolicyRequest) : SlmProgram T SlmResponse :=
  match CronSchedule.parse body.schedule with
  | .error error =>
    return .badRequest ("invalid schedule `" ++ body.schedule ++ "`: " ++ error.message)
  | .ok _ => do
    let _ ← ask (.upsert (body.policy id))
    match CronSchedule.parse (body.policy id).schedule with
    | .error _ => return .acknowledged
    | .ok schedule => do
      let now ← ask .now
      let _ ← ask (.setNextFire (body.policy id).name (schedule.nextFireAfter chrono now))
      return .acknowledged

def notFound (id : String) : SlmResponse :=
  .notFound ("snapshot lifecycle policy [" ++ id ++ "] not found")

def deletePolicyHandler (id : String) : SlmProgram T SlmResponse := do
  match ← ask (.remove id) with
  | true => return .acknowledged
  | false => return notFound id

def executePolicyHandler (id : String) : SlmProgram T SlmResponse := do
  match ← ask (.get id) with
  | none => return notFound id
  | some policy => do
    let now ← ask .now
    let exec ← executePolicy chrono policy now
    match exec.state with
    | .failed => return .failed (exec.error.getD "snapshot take failed")
    | .success => return .snapshotName exec.snapshotName

end Routes

end Surch.Slm
