import Surch.Lib.Pool
import Surch.Slm.Scheduler

/-! Ticks and requests that run side by side on the registry: what they leave in it once none is under
way. -/
namespace Surch.Slm
open Surch.Lib

section Knowledge

variable {T : Type} (chrono : Chrono T)

def FiresAt (schedule : String) (t : T) : Prop :=
  ∃ parsed, CronSchedule.parse schedule = .ok parsed ∧ parsed.Fires chrono t

/- What a call holds: nothing yet, the policies that a tick has copied, the policy that a PUT has put
without a next fire so far, or the policy that an `_execute` has read. -/
inductive SlmKnowledge (T : Type) where
  | nothing
  | copied (policies : List (SlmPolicy × Option T))
  | seeding (policy : SlmPolicy)
  | executing (policy : SlmPolicy)
  | ended
deriving DecidableEq

namespace SlmKnowledge

def learn : SlmKnowledge T → (q : SlmRequest T) → SlmAnswer q → SlmKnowledge T
  | .nothing, .snapshotForScheduling, policies => .copied policies
  | .nothing, .upsert policy, _ => .seeding policy
  | .nothing, .get _, some policy => .executing policy
  | .seeding _, .setNextFire _ _, _ => .ended
  | knowledge, _, _ => knowledge

def isSeeding : SlmKnowledge T → Bool
  | .seeding _ => true
  | _ => false

end SlmKnowledge

/- The requests that leave the registry alone and teach a call nothing that it relies on. -/
def SlmRequest.Quiet : SlmRequest T → Prop
  | .now => True
  | .executions _ => True
  | .lastExecution _ => True
  | .getRepository _ => True
  | .createSnapshot _ _ _ _ => True
  | .listSnapshots _ => True
  | .deleteSnapshot _ _ _ => True
  | .elsewhere _ => True
  | _ => False

/- A tick writes for the policies that it has copied, with the next fire it has copied or one that it has
computed from the copied schedule. -/
def SlmKnowledge.may (knowledge : SlmKnowledge T) (q : SlmRequest T) : Prop :=
  q.Quiet ∨ match knowledge, q with
    | .nothing, .get _ => True
    | .nothing, .snapshotForScheduling => True
    | .nothing, .upsert _ => True
    | .nothing, .remove _ => True
    | .copied policies, .recordExecution name _ => ∃ p ∈ policies, p.1.name = name
    | .copied policies, .setNextFire name next => ∃ p ∈ policies, p.1.name = name ∧
      ∀ t ∈ next, p.2 = some t ∨ FiresAt chrono p.1.schedule t
    | .seeding policy, .setNextFire name next =>
      policy.name = name ∧ ∀ t ∈ next, FiresAt chrono policy.schedule t
    | .executing policy, .recordExecution name _ => policy.name = name
    | _, _ => False

variable {chrono} {knowledge : SlmKnowledge T}

theorem SlmKnowledge.learn_quiet {q : SlmRequest T} (quiet : q.Quiet) (answer : SlmAnswer q) :
    knowledge.learn q answer = knowledge := by
  cases q <;> first | exact False.elim quiet | (cases knowledge <;> rfl)

variable (chrono) in
/- A program that keeps to the rules, and ends with the knowledge that `post` says. -/
def Observes {α : Type} (knowledge : SlmKnowledge T) (program : SlmProgram T α)
    (post : SlmKnowledge T → α → Prop) : Prop :=
  Program.Obeys SlmKnowledge.learn (SlmKnowledge.may chrono) post knowledge program

variable (chrono) in
/- One that keeps to the rules and learns nothing. -/
def Unaware {α : Type} (knowledge : SlmKnowledge T) (program : SlmProgram T α) : Prop :=
  Observes chrono knowledge program fun knowledge' _ => knowledge' = knowledge

theorem Unaware.pure {α : Type} (result : α) :
    Unaware chrono knowledge (pure result : SlmProgram T α) := rfl

theorem Unaware.bind {α β : Type} {first : SlmProgram T α} {next : α → SlmProgram T β}
    {post : SlmKnowledge T → β → Prop} (head : Unaware chrono knowledge first)
    (tail : ∀ result, Observes chrono knowledge (next result) post) :
    Observes chrono knowledge (first >>= next) post := by
  apply Program.Obeys.bind
  apply Program.Obeys.mono head
  rintro _ result rfl
  exact tail result

theorem Unaware.ite {α : Type} {c : Prop} [Decidable c] {yes no : SlmProgram T α}
    (holds : Unaware chrono knowledge yes) (fails : Unaware chrono knowledge no) :
    Unaware chrono knowledge (if c then yes else no) := by
  split
  · exact holds
  · exact fails

theorem Unaware.ask_quiet {q : SlmRequest T} (quiet : q.Quiet) : Unaware chrono knowledge (ask q) := by
  constructor
  · exact .inl quiet
  · exact fun answer => SlmKnowledge.learn_quiet quiet answer

end Knowledge

section Programs

variable {T : Type} {chrono : Chrono T} {knowledge : SlmKnowledge T}

theorem deleteAll_unaware (location repoName : String) (names : List String) :
    Unaware chrono knowledge (deleteAll location repoName names) := by
  induction names with
  | nil => exact Unaware.pure _
  | cons name names ih =>
    apply Unaware.bind
    · exact Unaware.ask_quiet trivial
    · exact fun _ => ih

theorem expiredNames_unaware (retention : SlmRetention) (successful : List SlmExecution) :
    Unaware chrono knowledge (expiredNames chrono retention successful) := by
  unfold expiredNames
  split
  · exact Unaware.pure _
  · apply Unaware.bind
    · exact Unaware.ask_quiet trivial
    · exact fun _ => Unaware.pure _

theorem enforce_unaware (policy : SlmPolicy) :
    Unaware chrono knowledge (enforceMaxCountRetention chrono policy) := by
  unfold enforceMaxCountRetention
  split
  · exact Unaware.pure _
  · apply Unaware.bind
    · exact Unaware.ask_quiet trivial
    · rintro (_ | location)
      · exact Unaware.pure _
      · apply Unaware.bind
        · exact Unaware.ask_quiet trivial
        · rintro (_ | snapshots)
          · exact Unaware.pure _
          · apply Unaware.bind
            · exact Unaware.ask_quiet trivial
            · intro executions
              apply Unaware.bind
              · exact expiredNames_unaware _ _
              · exact fun _ => deleteAll_unaware _ _ _

theorem takeSnapshot_unaware (policy : SlmPolicy) (fireTime : T) :
    Unaware chrono knowledge (takeSnapshot chrono policy fireTime) := by
  unfold takeSnapshot
  apply Unaware.bind
  · exact Unaware.ask_quiet trivial
  · intro started
    apply Unaware.bind
    · exact Unaware.ask_quiet trivial
    · rintro (_ | location)
      · apply Unaware.bind
        · exact Unaware.ask_quiet trivial
        · exact fun _ => Unaware.pure _
      · apply Unaware.bind
        · exact Unaware.ask_quiet trivial
        · rintro (error | entry)
          · apply Unaware.bind
            · exact Unaware.ask_quiet trivial
            · exact fun _ => Unaware.pure _
          · apply Unaware.bind
            · exact Unaware.ask_quiet trivial
            · exact fun _ => Unaware.pure _

theorem executePolicy_unaware {policy : SlmPolicy} (fireTime : T)
    (may : ∀ exec, knowledge.may chrono (.recordExecution policy.name exec))
    (same : ∀ exec answer, knowledge.learn (.recordExecution policy.name exec) answer = knowledge) :
    Unaware chrono knowledge (executePolicy chrono policy fireTime) := by
  unfold executePolicy
  apply Unaware.bind
  · exact takeSnapshot_unaware _ _
  · intro exec
    apply Unaware.bind
    · exact ⟨may exec, same exec⟩
    · intro _
      cases exec.state with
      | success =>
        apply Unaware.bind
        · exact enforce_unaware _
        · exact fun _ => Unaware.pure _
      | failed => exact Unaware.pure _

variable [LinearOrder T]

theorem tickPolicy_unaware (now : T) {policies : List (SlmPolicy × Option T)} {policy : SlmPolicy}
    {currentNextFire : Option T} (member : (policy, currentNextFire) ∈ policies) :
    Unaware chrono (.copied policies) (tickPolicy chrono now policy currentNextFire) := by
  have set {next : Option T}
      (fires : ∀ t ∈ next, currentNextFire = some t ∨ FiresAt chrono policy.schedule t) :
      Unaware chrono (.copied policies) (ask (.setNextFire policy.name next)) :=
    ⟨.inr ⟨_, member, rfl, fires⟩, fun _ => rfl⟩
  unfold tickPolicy
  split
  · exact set nofun
  · rename_i schedule parsed
    have due : Observes chrono (.copied policies)
        (dueFire chrono schedule policy now currentNextFire) fun knowledge due =>
          knowledge = .copied policies ∧
            ∀ t ∈ due, currentNextFire = some t ∨ FiresAt chrono policy.schedule t := by
      unfold dueFire
      split
      · exact ⟨rfl, fun t here => .inl here⟩
      · apply Unaware.bind
        · exact Unaware.ask_quiet trivial
        · intro last
          exact ⟨rfl, fun t found => .inr ⟨schedule, parsed, schedule.fires_of_nextFireAfter chrono found⟩⟩
    apply Program.Obeys.bind
    apply Program.Obeys.mono due
    rintro _ next ⟨rfl, fires⟩
    cases next with
    | none => exact set nofun
    | some fireAt =>
      apply Unaware.ite
      · exact set fires
      · apply Unaware.bind
        · apply executePolicy_unaware
          · exact fun exec => .inr ⟨_, member, rfl⟩
          · exact fun _ _ => rfl
        · intro _
          apply Unaware.bind
          · exact Unaware.ask_quiet trivial
          · intro later
            exact set fun t found =>
              .inr ⟨schedule, parsed, schedule.fires_of_nextFireAfter chrono found⟩

theorem tickPolicies_unaware (now : T) {policies : List (SlmPolicy × Option T)}
    (rest : List (SlmPolicy × Option T)) (members : ∀ p ∈ rest, p ∈ policies) :
    Unaware chrono (.copied policies) (tickPolicies chrono now rest) := by
  induction rest with
  | nil => exact Unaware.pure _
  | cons first rest ih =>
    apply Unaware.bind
    · exact tickPolicy_unaware now (members first List.mem_cons_self)
    · exact fun _ => ih fun p member => members p (List.mem_cons_of_mem _ member)

end Programs

section Calls

variable {T : Type} [LinearOrder T] (chrono : Chrono T)

/- What can be under way: a tick, the requests that change the registry, or anything else. -/
inductive SlmCall (T : Type) where
  | tick
  | put (id : String) (body : PutSlmPolicyRequest)
  | delete (id : String)
  | execute (id : String)
  | elsewhere (world : Surroundings T)

def SlmCall.program : SlmCall T → SlmProgram T (Option SlmResponse)
  | .tick => do
    runTick chrono
    return none
  | .put id body => some <$> putPolicyHandler chrono id body
  | .delete id => some <$> deletePolicyHandler id
  | .execute id => some <$> executePolicyHandler chrono id
  | .elsewhere world => do
    let _ ← ask (.elsewhere world)
    return none

def slmService : Service (SlmRequest T) SlmAnswer (Option SlmResponse) (SlmKnowledge T) (SlmStore T)
    (SlmCall T) where
  program := SlmCall.program chrono
  serve := SlmStore.serve
  fresh := .nothing
  learn := SlmKnowledge.learn

variable {chrono}

theorem putPolicyHandler_observes (id : String) (body : PutSlmPolicyRequest) :
    Observes chrono .nothing (putPolicyHandler chrono id body) fun knowledge _ =>
      knowledge.isSeeding = false := by
  unfold putPolicyHandler
  split
  · rfl
  · rename_i parsed
    apply Program.Obeys.bind
    constructor
    · exact .inr trivial
    · intro _
      have same : CronSchedule.parse (body.policy id).schedule = .ok _ := parsed
      rw [same]
      apply Unaware.bind
      · exact Unaware.ask_quiet trivial
      · intro now
        apply Program.Obeys.bind
        constructor
        · exact .inr ⟨rfl, fun t found =>
            ⟨_, parsed, CronSchedule.fires_of_nextFireAfter chrono _ found⟩⟩
        · exact fun _ => rfl

omit [LinearOrder T] in
theorem executePolicyHandler_observes (id : String) :
    Observes chrono .nothing (executePolicyHandler chrono id) fun knowledge _ =>
      knowledge.isSeeding = false := by
  apply Program.Obeys.bind
  constructor
  · exact .inr trivial
  · rintro (_ | policy)
    · rfl
    · have executed (now : T) : Unaware chrono (.executing policy)
          (executePolicy chrono policy now) :=
        executePolicy_unaware now (fun exec => .inr rfl) fun _ _ => rfl
      apply Unaware.bind
      · exact Unaware.ask_quiet trivial
      · intro now
        apply Unaware.bind (executed now)
        intro exec
        cases exec.state with
        | success => rfl
        | failed => rfl

theorem runTick_observes :
    Observes chrono .nothing (runTick chrono) fun knowledge _ => knowledge.isSeeding = false := by
  have ticked (now : T) (copied : List (SlmPolicy × Option T)) :
      Observes chrono (.copied copied) (tickPolicies chrono now copied) fun knowledge _ =>
        knowledge.isSeeding = false := by
    apply Program.Obeys.mono (tickPolicies_unaware now copied fun p member => member)
    rintro _ _ rfl
    rfl
  apply Unaware.bind
  · exact Unaware.ask_quiet trivial
  · intro now
    apply Program.Obeys.bind
    constructor
    · exact .inr trivial
    · exact fun copied => ticked now copied

theorem program_observes (call : SlmCall T) :
    Observes chrono .nothing (call.program chrono) fun knowledge _ => knowledge.isSeeding = false := by
  cases call with
  | tick =>
    apply Program.Obeys.bind
    apply Program.Obeys.mono runTick_observes
    exact fun _ _ done => done
  | put id body =>
    apply Program.Obeys.bind
    apply Program.Obeys.mono (putPolicyHandler_observes id body)
    exact fun _ _ done => done
  | delete id =>
    apply Program.Obeys.bind
    constructor
    · exact .inr trivial
    · rintro (_ | _)
      · rfl
      · rfl
  | execute id =>
    apply Program.Obeys.bind
    apply Program.Obeys.mono (executePolicyHandler_observes id)
    exact fun _ _ done => done
  | elsewhere world =>
    apply Unaware.bind
    · exact Unaware.ask_quiet trivial
    · exact fun _ => rfl

end Calls

section Rules

variable {T : Type} (chrono : Chrono T)

/- What the registry should hold: executions and next fires of its policies only, and for each policy a
time at which its schedule fires. -/
structure Coherent (registry : SlmPolicyRegistry T) : Prop where
  executions : ∀ name ∈ registry.executions.keys, name ∈ registry.policies.keys
  next_fires : ∀ name ∈ registry.nextFires.keys, name ∈ registry.policies.keys
  fires : ∀ name policy t, registry.policies.get? name = some policy →
    registry.nextFire name = some t → FiresAt chrono policy.schedule t

/- The same while calls are under way: a policy that is being seeded can have a next fire of another
schedule. -/
structure Settling (registry : SlmPolicyRegistry T) (calls : List (SlmKnowledge T)) : Prop where
  named : ∀ name policy, registry.policies.get? name = some policy → policy.name = name
  executions : ∀ name ∈ registry.executions.keys, name ∈ registry.policies.keys
  next_fires : ∀ name ∈ registry.nextFires.keys, name ∈ registry.policies.keys
  fires : ∀ name policy t, registry.policies.get? name = some policy →
    registry.nextFire name = some t → FiresAt chrono policy.schedule t ∨ .seeding policy ∈ calls

def Knows (_ : SlmStore T) : SlmKnowledge T → Prop
  | .copied policies => ∀ p ∈ policies, ∀ t ∈ p.2, FiresAt chrono p.1.schedule t
  | _ => True

/- The policies are copied while none is being seeded; a record is written for a policy that is still
registered, and a next fire for one that still has the schedule it was computed from. -/
def Undisturbed (d : SlmStore T) (calls : List (SlmKnowledge T)) (knowledge : SlmKnowledge T) :
    (q : SlmRequest T) → (failed : Bool) → Prop
  | .snapshotForScheduling, _ => ∀ other ∈ calls, other.isSeeding = false
  | .recordExecution name _, _ => (d.policies.policies.get? name).isSome
  | .setNextFire name _, _ => ∃ policy ∈ d.policies.policies.get? name, match knowledge with
    | .copied policies => ∀ p ∈ policies, p.1.name = name → p.1.schedule = policy.schedule
    | .seeding seeded => seeded.schedule = policy.schedule
    | _ => True
  | _, _ => True

instance (d : SlmStore T) (calls : List (SlmKnowledge T)) (knowledge : SlmKnowledge T) :
    ∀ (q : SlmRequest T) (failed : Bool), Decidable (Undisturbed d calls knowledge q failed)
  | .snapshotForScheduling, _ =>
    inferInstanceAs (Decidable (∀ other ∈ calls, other.isSeeding = false))
  | .recordExecution name _, _ =>
    inferInstanceAs (Decidable ((d.policies.policies.get? name).isSome = true))
  | .setNextFire name _, _ => match knowledge with
    | .copied policies => inferInstanceAs (Decidable (∃ policy ∈ d.policies.policies.get? name,
      ∀ p ∈ policies, p.1.name = name → p.1.schedule = policy.schedule))
    | .seeding seeded => inferInstanceAs (Decidable (∃ policy ∈ d.policies.policies.get? name,
      seeded.schedule = policy.schedule))
    | .nothing => inferInstanceAs (Decidable (∃ policy ∈ d.policies.policies.get? name, True))
    | .executing _ => inferInstanceAs (Decidable (∃ policy ∈ d.policies.policies.get? name, True))
    | .ended => inferInstanceAs (Decidable (∃ policy ∈ d.policies.policies.get? name, True))
  | .now, _ => isTrue trivial
  | .get _, _ => isTrue trivial
  | .upsert _, _ => isTrue trivial
  | .remove _, _ => isTrue trivial
  | .executions _, _ => isTrue trivial
  | .lastExecution _, _ => isTrue trivial
  | .getRepository _, _ => isTrue trivial
  | .createSnapshot _ _ _ _, _ => isTrue trivial
  | .listSnapshots _, _ => isTrue trivial
  | .deleteSnapshot _ _ _, _ => isTrue trivial
  | .elsewhere _, _ => isTrue trivial

variable {chrono} {d : SlmStore T} {calls : List (SlmKnowledge T)} {knowledge : SlmKnowledge T}
  {q : SlmRequest T} {failed : Bool}

theorem serve_quiet (quiet : q.Quiet) : (d.serve failed q).2.policies = d.policies := by
  cases q <;> first | exact False.elim quiet | rfl

theorem mem_set_of_ne {i : Nat} {other next : SlmKnowledge T} (here : calls[i]? = some knowledge)
    (member : other ∈ calls) (distinct : other ≠ knowledge) : other ∈ calls.set i next := by
  obtain ⟨j, there⟩ := List.getElem?_of_mem member
  have apart : i ≠ j := by
    rintro rfl
    exact distinct (Option.some.inj (there.symm.trans here))
  apply List.mem_of_getElem? (i := j)
  rw [List.getElem?_set_ne apart]
  exact there

theorem Settling.set {registry : SlmPolicyRegistry T} (settling : Settling chrono registry calls)
    {i : Nat} (here : calls[i]? = some knowledge) (unseeded : knowledge.isSeeding = false)
    (next : SlmKnowledge T) : Settling chrono registry (calls.set i next) := by
  constructor
  · exact settling.named
  · exact settling.executions
  · exact settling.next_fires
  · intro name policy t registered cached
    rcases settling.fires name policy t registered cached with fires | seeding
    · exact .inl fires
    · right
      apply mem_set_of_ne here seeding
      rintro rfl
      cases unseeded

theorem Settling.upsert {registry : SlmPolicyRegistry T} (settling : Settling chrono registry calls)
    {i : Nat} (here : calls[i]? = some .nothing) (policy : SlmPolicy) :
    Settling chrono (registry.upsert policy) (calls.set i (.seeding policy)) := by
  constructor
  · intro name found registered
    rw [SlmPolicyRegistry.upsert, SortedMap.get?_upsert] at registered
    split at registered
    · rename_i same
      obtain rfl := Option.some.inj registered
      exact same.symm
    · exact settling.named name found registered
  · intro name member
    rw [SlmPolicyRegistry.upsert, SortedMap.mem_keys_upsert]
    exact .inr (settling.executions name member)
  · intro name member
    rw [SlmPolicyRegistry.upsert, SortedMap.mem_keys_upsert]
    exact .inr (settling.next_fires name member)
  · intro name found t registered cached
    rw [SlmPolicyRegistry.upsert, SortedMap.get?_upsert] at registered
    split at registered
    · obtain rfl := Option.some.inj registered
      exact .inr (List.mem_set (List.getElem?_eq_some_iff.mp here).1 _)
    · rcases settling.fires name found t registered cached with fires | seeding
      · exact .inl fires
      · exact .inr (mem_set_of_ne here seeding nofun)

theorem mem_keys_erase {V : Type} (m : SortedMap String V) (k x : String) :
    x ∈ (m.erase k).keys ↔ x ∈ m.keys ∧ x ≠ k := by
  simp only [SortedMap.mem_keys_iff, SortedMap.get?_erase]
  by_cases same : x = k
  · simp [same]
  · simp [same]

theorem Settling.remove {registry : SlmPolicyRegistry T} (settling : Settling chrono registry calls)
    (name : String) : Settling chrono (registry.remove name).2 calls := by
  unfold SlmPolicyRegistry.remove
  constructor
  · intro other policy registered
    rw [SortedMap.get?_erase] at registered
    split at registered
    · cases registered
    · exact settling.named other policy registered
  · intro other member
    rw [mem_keys_erase] at member ⊢
    exact ⟨settling.executions other member.1, member.2⟩
  · intro other member
    rw [mem_keys_erase] at member ⊢
    exact ⟨settling.next_fires other member.1, member.2⟩
  · intro other policy t registered cached
    unfold SlmPolicyRegistry.nextFire at cached
    rw [SortedMap.get?_erase] at registered cached
    split at registered
    · cases registered
    · rename_i distinct
      rw [if_neg distinct] at cached
      exact settling.fires other policy t registered cached

theorem Settling.recordExecution {registry : SlmPolicyRegistry T}
    (settling : Settling chrono registry calls) {name : String}
    (registered : (registry.policies.get? name).isSome) (exec : SlmExecution) :
    Settling chrono (registry.recordExecution name exec) calls := by
  constructor
  · exact settling.named
  · intro other member
    rw [SlmPolicyRegistry.recordExecution, SortedMap.mem_keys_upsert] at member
    rcases member with rfl | old
    · exact (SortedMap.mem_keys_iff _ _).mpr (Option.isSome_iff_exists.mp registered)
    · exact settling.executions other old
  · exact settling.next_fires
  · exact settling.fires

theorem Settling.setNextFire {registry : SlmPolicyRegistry T}
    (settling : Settling chrono registry calls) {i : Nat} (here : calls[i]? = some knowledge)
    {after : SlmKnowledge T} {name : String}
    (seeds : ∀ policy, knowledge = .seeding policy → policy.name = name) {policy : SlmPolicy} (registered : registry.policies.get? name = some policy)
    {next : Option T} (fires : ∀ t ∈ next, FiresAt chrono policy.schedule t) :
    Settling chrono (registry.setNextFire name next) (calls.set i after) := by
  constructor
  · exact settling.named
  · exact settling.executions
  · intro other member
    rw [SlmPolicyRegistry.setNextFire, SortedMap.mem_keys_upsert] at member
    rcases member with rfl | old
    · exact (SortedMap.mem_keys_iff _ _).mpr ⟨policy, registered⟩
    · exact settling.next_fires other old
  · intro other found t registered' cached
    unfold SlmPolicyRegistry.nextFire SlmPolicyRegistry.setNextFire at cached
    rw [SortedMap.get?_upsert] at cached
    split at cached
    · rename_i same
      subst same
      obtain rfl := Option.some.inj (registered.symm.trans registered')
      exact .inl (fires t cached)
    · rename_i distinct
      rcases settling.fires other found t registered' cached with fires | seeding
      · exact .inl fires
      · right
        apply mem_set_of_ne here seeding
        rintro rfl
        exact distinct ((settling.named other found registered').symm.trans (seeds found rfl))

theorem settling_step {i : Nat} (here : calls[i]? = some knowledge)
    (settling : Settling chrono d.policies calls) (knows : Knows chrono d knowledge)
    (may : knowledge.may chrono q) (undisturbed : Undisturbed d calls knowledge q failed) :
    Settling chrono (d.serve failed q).2.policies
      (calls.set i (knowledge.learn q (d.serve failed q).1)) := by
  rcases may with quiet | may
  · rw [serve_quiet quiet, SlmKnowledge.learn_quiet quiet]
    obtain ⟨inside, value⟩ := List.getElem?_eq_some_iff.mp here
    rw [← value, List.set_getElem_self]
    exact settling
  · cases knowledge with
    | nothing =>
      cases q with
      | get name => exact settling.set here rfl _
      | snapshotForScheduling => exact settling.set here rfl _
      | upsert policy => exact settling.upsert here policy
      | remove name => exact (settling.remove name).set here rfl _
      | _ => cases may
    | copied policies =>
      cases q with
      | recordExecution name exec =>
        exact (settling.recordExecution undisturbed exec).set here rfl _
      | setNextFire name next =>
        obtain ⟨p, member, named, fires⟩ := may
        obtain ⟨policy, registered, current⟩ := undisturbed
        apply settling.setNextFire here nofun registered
        intro t set
        rw [← current p member named]
        rcases fires t set with copied | fires
        · exact knows p member t copied
        · exact fires
      | _ => cases may
    | seeding seeded =>
      cases q with
      | setNextFire name next =>
        obtain ⟨named, fires⟩ := may
        obtain ⟨policy, registered, current⟩ := undisturbed
        apply settling.setNextFire here _ registered
        · intro t set
          rw [← current]
          exact fires t set
        · intro _ same
          cases same
          exact named
      | _ => cases may
    | executing policy =>
      cases q with
      | recordExecution name exec =>
        exact (settling.recordExecution undisturbed exec).set here rfl _
      | _ => cases may
    | ended => cases q <;> cases may

theorem knows_step (settling : Settling chrono d.policies calls) (knows : Knows chrono d knowledge)
    (may : knowledge.may chrono q) (undisturbed : Undisturbed d calls knowledge q failed) :
    Knows chrono (d.serve failed q).2 (knowledge.learn q (d.serve failed q).1) := by
  rcases may with quiet | may
  · rw [SlmKnowledge.learn_quiet quiet]
    exact knows
  · cases knowledge with
    | nothing =>
      cases q with
      | get name =>
        simp only [SlmStore.serve]
        cases d.policies.get name <;> trivial
      | snapshotForScheduling =>
        intro p member t cached
        obtain ⟨⟨name, policy⟩, entry, rfl⟩ := List.mem_map.mp member
        have registered := (SortedMap.get?_eq_some_iff _ _ _).mpr entry
        have named := settling.named name policy registered
        rw [← named] at registered
        rcases settling.fires policy.name policy t registered cached with fires | seeding
        · exact fires
        · exact absurd (undisturbed _ seeding) nofun
      | upsert policy => trivial
      | remove name => trivial
      | _ => cases may
    | copied policies => cases q <;> first | exact False.elim may | exact knows
    | seeding seeded => cases q <;> first | exact False.elim may | trivial
    | executing policy => cases q <;> first | exact False.elim may | trivial
    | ended => cases q <;> cases may

theorem slm_rules [LinearOrder T] (chrono : Chrono T) : (slmService chrono).Rules (SlmKnowledge.may chrono)
    (fun knowledge _ => knowledge.isSeeding = false)
    (fun d _ calls => Settling chrono d.policies calls) (Knows chrono) (fun _ _ => True)
    Undisturbed := by
  constructor
  · exact program_observes
  · exact fun _ => trivial
  · exact fun _ => trivial
  · intro d returned calls settling
    constructor
    · exact settling.named
    · exact settling.executions
    · exact settling.next_fires
    · intro name policy t registered cached
      rcases settling.fires name policy t registered cached with fires | seeding
      · exact .inl fires
      · exact .inr (List.mem_append_left _ seeding)
  · exact fun _ _ _ => trivial
  · exact fun d _ calls knowledge q failed settling knows may undisturbed =>
      knows_step settling knows may undisturbed
  · intro d _ calls knowledge q failed other settling knows may undisturbed known _
    exact ⟨known, trivial⟩
  · exact fun d _ calls i knowledge q failed _ here settling knows may undisturbed _ =>
      settling_step here settling knows may undisturbed
  · exact fun d _ calls i knowledge q failed _ here settling knows may undisturbed _ =>
      settling_step here settling knows may undisturbed

end Rules

section Runs

variable {T : Type} (chrono : Chrono T)

abbrev SlmPool (T : Type) :=
  Pool (SlmRequest T) SlmAnswer (Option SlmResponse) (SlmKnowledge T) (SlmStore T)

def SlmPool.start (world : Surroundings T) : SlmPool T := ⟨⟨.empty, world⟩, [], []⟩

/-- Whenever no tick and no request is under way, the registry is coherent, if the requests of each were
undisturbed by the others. -/
theorem registry_coherent [LinearOrder T] (world : Surroundings T) {events : List (PoolEvent (SlmCall T))}
    (undisturbed : Admitted (Pool.step (slmService chrono)) (Pool.Allows Undisturbed)
      (SlmPool.start world) events)
    (idle : (runEvents (Pool.step (slmService chrono)) events (SlmPool.start world)).Idle) :
    Coherent chrono
      (runEvents (Pool.step (slmService chrono)) events (SlmPool.start world)).store.policies := by
  have initial : Pool.Sound (slmService chrono) (SlmKnowledge.may chrono)
      (fun knowledge _ => knowledge.isSeeding = false)
      (fun d _ calls => Settling chrono d.policies calls) (Knows chrono) (fun _ _ => True)
      (SlmPool.start world) :=
    ⟨nofun, nofun, fun _ _ _ _ _ _ _ => trivial, nofun, nofun, nofun, nofun⟩
  have sound := initial.run (slm_rules chrono) undisturbed
  generalize runEvents (Pool.step (slmService chrono)) events (SlmPool.start world) = w at idle sound
  constructor
  · exact sound.shared.executions
  · exact sound.shared.next_fires
  · intro name policy t registered cached
    rcases sound.shared.fires name policy t registered cached with fires | seeding
    · exact fires
    · -- a call that has returned seeds nothing
      obtain ⟨call, member, same⟩ := List.mem_map.mp seeding
      have obeys := sound.obeys call member
      have returned := idle call member
      cases program : call.program with
      | done result =>
        rw [program, same] at obeys
        cases obeys
      | ask q next =>
        rw [program] at returned
        cases returned

end Runs

section Night

def bareWorld (clock : Int) : Surroundings Int := ⟨.empty, .empty, 0, clock, ""⟩

def nightly : PutSlmPolicyRequest where
  schedule := "30 1 * * *"
  name := none
  repository := "repo"
  config := ⟨[], false⟩
  retention := none

def advances (position count : Nat) : List (PoolEvent (SlmCall Int)) :=
  List.replicate count (.advance position false)

def untilCopied : List (PoolEvent (SlmCall Int)) :=
  .start (.put "nightly" nightly) :: advances 0 3 ++
    .start (.elsewhere (bareWorld 1779019200000)) :: advances 1 1 ++ .start .tick :: advances 2 2

theorem registry_coherent_nightly :
    Coherent gregorian (runEvents (Pool.step (slmService gregorian)) (untilCopied ++ advances 2 6)
      (SlmPool.start (bareWorld 1778932800000))).store.policies :=
  registry_coherent gregorian (bareWorld 1778932800000) (by decide +kernel) (by decide +kernel)

/-- A policy that is deleted after the tick has copied it leaves a record and a next fire. -/
theorem not_registry_coherent : ¬ ∀ (world : Surroundings Int) (events : List (PoolEvent (SlmCall Int))),
    (runEvents (Pool.step (slmService gregorian)) events (SlmPool.start world)).Idle →
      Coherent gregorian
        (runEvents (Pool.step (slmService gregorian)) events (SlmPool.start world)).store.policies := by
  intro always
  have coherent := always (bareWorld 1778932800000)
    (untilCopied ++ .start (.delete "nightly") :: advances 3 1 ++ advances 2 6) (by decide +kernel)
  have registered := coherent.executions "nightly" (by decide +kernel)
  exact absurd registered (by decide +kernel)

end Night

end Surch.Slm
