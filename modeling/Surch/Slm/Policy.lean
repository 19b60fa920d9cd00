import Mathlib.Data.String.Basic
import Surch.Lib.SortedMap

/-! The policies of snapshot lifecycle management, and the registry that keeps them with their
execution logs and next fire times. -/
namespace Surch.Slm
open Surch.Lib

structure SlmConfig where
  indices : List String
  includeGlobalState : Bool
deriving DecidableEq

structure SlmRetention where
  expireAfter : Option String
  minCount : Option Nat
  maxCount : Option Nat
deriving DecidableEq

structure SlmPolicy where
  name : String
  schedule : String
  namePattern : String
  repository : String
  config : SlmConfig
  retention : Option SlmRetention
deriving DecidableEq

inductive SlmExecutionState where
  | success
  | failed
deriving DecidableEq

structure SlmExecution where
  snapshotName : String
  state : SlmExecutionState
  startedAtMillis : Int
  finishedAtMillis : Int
  error : Option String
deriving DecidableEq

section NamePattern

/- `str::replace`, where `skip` characters of an occurrence are still to be passed over. -/
def replaceFrom (pattern replacement : List Char) : Nat → List Char → List Char
  | _, [] => []
  | skip + 1, _ :: rest => replaceFrom pattern replacement skip rest
  | 0, c :: rest =>
    if pattern.isPrefixOf (c :: rest) then
      replacement ++ replaceFrom pattern replacement (pattern.length - 1) rest
    else c :: replaceFrom pattern replacement 0 rest

/- One pair of angle brackets around the pattern is taken off. -/
def stripBrackets : List Char → List Char
  | '<' :: rest => if rest.getLast? = some '>' then rest.dropLast else '<' :: rest
  | pattern => pattern

/- `date` is the day of the execution as `YYYYMMDD`. -/
def expandNamePattern (pattern date : String) : String :=
  String.ofList
    (replaceFrom "{now/d}".toList date.toList 0 (stripBrackets pattern.toList))

example : expandNamePattern "<deces-{now/d}>" "20260516" = "deces-20260516" := by decide +kernel

end NamePattern

section Registry

def executionLogCapacity : Nat := 100

def pushBounded {α : Type} (queue : List α) (entry : α) : List α :=
  (queue ++ [entry]).drop (queue.length + 1 - executionLogCapacity)

/- `T` are the instants of the next fires; `none` is a schedule without one. -/
structure SlmPolicyRegistry (T : Type) where
  policies : SortedMap String SlmPolicy
  executions : SortedMap String (List SlmExecution)
  nextFires : SortedMap String (Option T)

namespace SlmPolicyRegistry

variable {T : Type} (registry : SlmPolicyRegistry T)

def empty : SlmPolicyRegistry T := ⟨.empty, .empty, .empty⟩

def get (name : String) : Option SlmPolicy := registry.policies.get? name

def upsert (policy : SlmPolicy) : SlmPolicyRegistry T :=
  { registry with policies := registry.policies.upsert policy.name fun _ => policy }

def remove (name : String) : Bool × SlmPolicyRegistry T :=
  ((registry.policies.get? name).isSome, {
    policies := registry.policies.erase name
    executions := registry.executions.erase name
    nextFires := registry.nextFires.erase name })

def executionsOf (name : String) : List SlmExecution := (registry.executions.get? name).getD []

def recordExecution (name : String) (exec : SlmExecution) : SlmPolicyRegistry T :=
  { registry with
    executions := registry.executions.upsert name fun queue => pushBounded (queue.getD []) exec }

def lastExecution (name : String) : Option SlmExecution := (registry.executionsOf name).getLast?

def setNextFire (name : String) (next : Option T) : SlmPolicyRegistry T :=
  { registry with nextFires := registry.nextFires.upsert name fun _ => next }

def nextFire (name : String) : Option T := (registry.nextFires.get? name).getD none

def snapshotForScheduling : List (SlmPolicy × Option T) :=
  registry.policies.entries.map fun entry => (entry.2, registry.nextFire entry.2.name)

@[simp] theorem executionsOf_recordExecution (name other : String) (exec : SlmExecution) :
    (registry.recordExecution name exec).executionsOf other =
      if other = name then pushBounded (registry.executionsOf name) exec
      else registry.executionsOf other := by
  simp only [executionsOf, recordExecution, SortedMap.get?_upsert]
  split <;> rfl

@[simp] theorem executionsOf_upsert (policy : SlmPolicy) (name : String) :
    (registry.upsert policy).executionsOf name = registry.executionsOf name := rfl

@[simp] theorem executionsOf_remove (name other : String) :
    (registry.remove name).2.executionsOf other =
      if other = name then [] else registry.executionsOf other := by
  simp only [executionsOf, remove, SortedMap.get?_erase]
  split <;> rfl

end SlmPolicyRegistry

end Registry

section Queue

variable {α β : Type}

theorem pushBounded_map (f : α → β) (queue : List α) (entry : α) :
    (pushBounded queue entry).map f = pushBounded (queue.map f) (f entry) := by
  simp [pushBounded, List.map_drop]

theorem length_pushBounded (queue : List α) (entry : α) :
    (pushBounded queue entry).length = min (queue.length + 1) executionLogCapacity := by
  simp only [pushBounded, List.length_drop, List.length_append, List.length_singleton]
  omega

theorem mem_pushBounded {queue : List α} {entry x : α} (member : x ∈ pushBounded queue entry) :
    x ∈ queue ∨ x = entry := by
  have listed := List.mem_of_mem_drop member
  rwa [List.mem_append, List.mem_singleton] at listed

end Queue

end Surch.Slm
