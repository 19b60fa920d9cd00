import Surch.Lib.Pool
import Surch.Snapshot.Service

/-! What the two calls ask of a repository, given what they have learnt from it so far. -/
namespace Surch.Snapshot
open Surch.Lib

section Knowledge

/- What a call has learnt: nothing yet, the manifest it has read, the manifest with its etag, the
snapshot uuid it has drawn and the keys it has put; or how it ended, with the manifest it had and the one
it wrote. -/
inductive Knowledge where
  | nothing
  | loaded (manifest : RootManifest)
  | paired (manifest : RootManifest) (etag : Option Nat) (own : Option Uuid) (put : List String)
  | ended (written : Option (RootManifest × RootManifest))

def Knowledge.learn : Knowledge → (q : RepositoryRequest) → RepositoryAnswer q → Knowledge
  | .nothing, .getManifest, .ok manifest => .loaded manifest
  | .nothing, .getManifest, .error (.notFound _) => .paired .default none none []
  | .nothing, .getManifest, .error _ => .ended none
  | .loaded manifest, .readEtag, .ok etag => .paired manifest etag none []
  | .loaded _, .readEtag, .error _ => .ended none
  | .paired manifest etag own put, .newUuid, uuid =>
    .paired manifest etag (own.or (some uuid)) put
  | .paired manifest etag own put, .putObject key _, .ok () => .paired manifest etag own (key :: put)
  | .paired manifest _ _ _, .compareAndSet _ next, .ok _ => .ended (some (manifest, next))
  | .paired _ _ _ _, .compareAndSet _ _, .error _ => .ended none
  | knowledge, _, _ => knowledge

/- The new manifests that a call may write over the one it has read: one more snapshot, whose objects it
has put, or one less. -/
inductive Changes (manifest : RootManifest) (own : Option Uuid) (put : List String)
    (next : RootManifest) : Prop
  | created (entry : SnapshotEntry) (fresh : ∀ s ∈ manifest.snapshots, s.name ≠ entry.name)
    (mine : own = some entry.uuid) (snapshots : next.snapshots = manifest.snapshots ++ [entry])
    (grown : ∀ index uuid, manifest.indices.get? index = some uuid →
      next.indices.get? index = some uuid)
    (shipped : ∀ index ∈ entry.indices, ∃ uuid, next.indices.get? index = some uuid ∧
      metaKey uuid entry.uuid ∈ put ∧ payloadKey uuid entry.uuid ∈ put)
  | deleted (snapName : String)
    (snapshots : next.snapshots = manifest.snapshots.eraseP fun s => s.name = snapName)
    (indices : next.indices = manifest.indices)

def Knowledge.may : Knowledge → RepositoryRequest → Prop
  | .nothing, .getManifest => True
  | .loaded _, .readEtag => True
  | .paired _ _ _ _, .newUuid => True
  | .paired _ _ own _, .putObject key _ => ∃ uuid, own = some uuid ∧ KeyOf uuid key
  | .paired manifest _ _ _, .deleteObject key => ∃ entry ∈ manifest.snapshots, KeyOf entry.uuid key
  | .paired manifest etag own put, .compareAndSet expected next =>
    expected = etag ∧ Changes manifest own put next
  | _, _ => False

def Knowledge.Unwritten (knowledge : Knowledge) : Prop := ∀ written, knowledge ≠ .ended (some written)

/-- Only a compare-and-set can end a call with a manifest written. -/
theorem Knowledge.learn_unwritten {knowledge : Knowledge} {q : RepositoryRequest}
    (may : knowledge.may q) (other : ∀ expected next, q ≠ .compareAndSet expected next)
    (answer : RepositoryAnswer q) : (knowledge.learn q answer).Unwritten := by
  intro written
  cases knowledge with
  | nothing =>
    cases q with
    | getManifest =>
      rcases answer with (error | manifest)
      · cases error <;> exact nofun
      · exact nofun
    | _ => cases may
  | loaded manifest =>
    cases q with
    | readEtag => rcases answer with (error | etag) <;> exact nofun
    | _ => cases may
  | paired manifest etag own put =>
    cases q with
    | newUuid => exact nofun
    | putObject key object => rcases answer with (error | etag) <;> exact nofun
    | deleteObject key => rcases answer with (error | etag) <;> exact nofun
    | compareAndSet expected next => exact absurd rfl (other expected next)
    | _ => cases may
  | ended written => cases q <;> cases may

/-- A compare-and-set is the last request of a call. -/
theorem Knowledge.may_compareAndSet {knowledge : Knowledge} {expected : Option Nat}
    {next : RootManifest} (may : knowledge.may (.compareAndSet expected next)) :
    ∃ manifest own put, knowledge = .paired manifest expected own put ∧ Changes manifest own put next := by
  cases knowledge with
  | paired manifest etag own put =>
    obtain ⟨rfl, changes⟩ := may
    exact ⟨manifest, own, put, rfl, changes⟩
  | _ => cases may

/- A call returns `Ok` with its change written, and an error with none. -/
def Knowledge.ends (knowledge : Knowledge) : SnapshotReturn → Prop
  | .created (.ok entry) => ∃ manifest next, knowledge = .ended (some (manifest, next)) ∧
    next.snapshots = manifest.snapshots ++ [entry] ∧ ∀ s ∈ manifest.snapshots, s.name ≠ entry.name
  | .deleted snapName (.ok ()) => ∃ manifest next, knowledge = .ended (some (manifest, next)) ∧
    next.snapshots = manifest.snapshots.eraseP fun s => s.name = snapName
  | .created (.error _) => knowledge.Unwritten
  | .deleted _ (.error _) => knowledge.Unwritten

/- A program that asks for what it may, and ends well or with nothing written. -/
def Follows {α : Type} (knowledge : Knowledge) (program : ServiceProgram α)
    (post : Knowledge → α → Prop) : Prop :=
  Program.Obeys Knowledge.learn Knowledge.may
    (fun knowledge (result : ServiceResult α) => match result with
      | .ok value => post knowledge value
      | .error _ => knowledge.Unwritten) knowledge program.run

variable {α β : Type} {knowledge : Knowledge}

theorem Follows.pure {post : Knowledge → α → Prop} {value : α} (here : post knowledge value) :
    Follows knowledge (pure value) post := here

theorem Follows.throw {post : Knowledge → α → Prop} {error : SnapshotServiceError}
    (unwritten : knowledge.Unwritten) : Follows knowledge (throw error) post := unwritten

theorem Follows.bind {program : ServiceProgram α} {next : α → ServiceProgram β}
    {post : Knowledge → β → Prop}
    (first : Follows knowledge program fun knowledge value => Follows knowledge (next value) post) :
    Follows knowledge (program >>= next) post := by
  apply Program.Obeys.bind
  apply Program.Obeys.mono first
  rintro knowledge (error | value) result
  · exact result
  · exact result

theorem Follows.mono {program : ServiceProgram α} {post weaker : Knowledge → α → Prop}
    (follows : Follows knowledge program post)
    (weakens : ∀ knowledge value, post knowledge value → weaker knowledge value) :
    Follows knowledge program weaker := by
  apply Program.Obeys.mono follows
  rintro knowledge (error | value) result
  · exact result
  · exact weakens _ _ result

end Knowledge

section Requests

theorem unwritten_paired (manifest : RootManifest) (etag : Option Nat) (own : Option Uuid)
    (put : List String) : (Knowledge.paired manifest etag own put).Unwritten := nofun

theorem unwritten_ended : (Knowledge.ended none).Unwritten := nofun

theorem loadOrInitManifest_follows : Follows .nothing loadOrInitManifest fun knowledge loaded =>
    knowledge = .paired loaded.1 loaded.2 none [] := by
  constructor
  · trivial
  · rintro (error | manifest)
    · cases error with
      | notFound key => rfl
      | casConflict key expected found => exact unwritten_ended
      | io key => exact unwritten_ended
    · constructor
      · trivial
      · rintro (error | etag)
        · exact unwritten_ended
        · rfl

variable {manifest : RootManifest} {etag : Option Nat} {own : Option Uuid} {put : List String}

theorem newUuid_follows : Follows (.paired manifest etag own put) newUuid fun knowledge uuid =>
    knowledge = .paired manifest etag (own.or (some uuid)) put := ⟨trivial, fun _ => rfl⟩

theorem putObject_follows {uuid : Uuid} {key : String} (of : KeyOf uuid key) (object : SnapshotObject) :
    Follows (.paired manifest etag (some uuid) put) (putObject key object) fun knowledge _ =>
      knowledge = .paired manifest etag (some uuid) (key :: put) := by
  constructor
  · exact ⟨uuid, rfl, of⟩
  · rintro (error | _)
    · exact unwritten_paired _ _ _ _
    · rfl

theorem deleteObject_follows {entry : SnapshotEntry} (listed : entry ∈ manifest.snapshots)
    {key : String} (of : KeyOf entry.uuid key) :
    Follows (.paired manifest etag own put) (deleteObject key) fun knowledge _ =>
      knowledge = .paired manifest etag own put := by
  constructor
  · exact ⟨entry, listed, of⟩
  · rintro (error | _)
    · rfl
    · rfl

theorem writeManifest_follows {next : RootManifest} (changes : Changes manifest own put next) :
    Follows (.paired manifest etag own put) (writeManifest next etag) fun knowledge _ =>
      knowledge = .ended (some (manifest, next)) := by
  constructor
  · exact ⟨rfl, changes⟩
  · rintro (error | _)
    · exact unwritten_ended
    · rfl

end Requests

section Create

variable {manifest : RootManifest} {etag : Option Nat} {own : Uuid} {put : List String}

/- The same snapshots, and no index has lost its uuid. -/
def RootManifest.Grows (manifest next : RootManifest) : Prop :=
  next.snapshots = manifest.snapshots ∧
    ∀ index uuid, manifest.indices.get? index = some uuid → next.indices.get? index = some uuid

theorem assignUuids_follows (assigned : RootManifest) (indices : List String) :
    Follows (.paired manifest etag (some own) put) (assignUuids assigned indices) fun knowledge next =>
      knowledge = .paired manifest etag (some own) put ∧ assigned.Grows next ∧
        ∀ index ∈ indices, (next.indices.get? index).isSome := by
  induction indices generalizing assigned with
  | nil => exact .pure ⟨rfl, ⟨rfl, fun _ _ => id⟩, nofun⟩
  | cons index rest ih =>
    rw [assignUuids]
    split
    · rename_i uuid here
      apply (ih assigned).mono
      rintro _ next ⟨same, grows, all⟩
      refine ⟨same, grows, ?_⟩
      intro other member
      rcases List.mem_cons.mp member with rfl | later
      · rw [grows.2 _ _ here]
        rfl
      · exact all other later
    · rename_i missing
      apply Follows.bind
      apply newUuid_follows.mono
      rintro _ uuid rfl
      apply (ih _).mono
      rintro _ next ⟨same, ⟨snapshots, kept⟩, all⟩
      have fresh := kept index uuid ((assigned.indices.get?_upsert _ _ _).trans (if_pos rfl))
      refine ⟨same, ⟨snapshots, ?_⟩, ?_⟩
      · intro other old found
        apply kept
        rw [SortedMap.get?_upsert, if_neg, found]
        rintro rfl
        rw [missing] at found
        cases found
      · intro other member
        rcases List.mem_cons.mp member with rfl | later
        · rw [fresh]
          rfl
        · exact all other later

theorem exportIndices_follows (state : StateView) (assigned : RootManifest) (indices : List String) :
    Follows (.paired manifest etag (some own) put) (exportIndices state assigned own indices)
      fun knowledge _ => ∃ put', knowledge = .paired manifest etag (some own) put' ∧ put ⊆ put' ∧
        ∀ index ∈ indices, metaKey (assigned.indexUuid index) own ∈ put' ∧
          payloadKey (assigned.indexUuid index) own ∈ put' := by
  induction indices generalizing put with
  | nil => exact .pure ⟨put, rfl, List.Subset.refl _, nofun⟩
  | cons index rest ih =>
    rw [exportIndices]
    split
    · exact .throw (unwritten_paired _ _ _ _)
    · apply Follows.bind
      apply (putObject_follows (.index _) _).mono
      rintro _ _ rfl
      split
      · exact .throw (unwritten_paired _ _ _ _)
      · apply Follows.bind
        apply (putObject_follows (.payload _) _).mono
        rintro _ _ rfl
        apply ih.mono
        rintro _ _ ⟨put', same, more, shipped⟩
        refine ⟨put', same, fun key member => more (List.mem_cons_of_mem _ (List.mem_cons_of_mem _ member)), ?_⟩
        intro other member
        rcases List.mem_cons.mp member with rfl | later
        · exact ⟨more (List.mem_cons_of_mem _ List.mem_cons_self), more List.mem_cons_self⟩
        · exact shipped other later

theorem createSnapshot_follows (state : StateView) (repoName snapName : String)
    (indices : List String) (includeGlobalState : Bool) (start finish : Int) :
    Follows .nothing
      (createSnapshot state repoName snapName indices includeGlobalState start finish)
      fun knowledge entry => knowledge.ends (.created (.ok entry)) := by
  apply Follows.bind
  apply loadOrInitManifest_follows.mono
  rintro _ ⟨manifest, etag⟩ rfl
  dsimp only
  split
  · exact .throw (unwritten_paired _ _ _ _)
  rename_i unused
  split
  · exact .throw (unwritten_paired _ _ _ _)
  rename_i resolved _
  apply Follows.bind
  apply newUuid_follows.mono
  rintro _ snapUuid rfl
  apply Follows.bind
  apply (assignUuids_follows manifest resolved).mono
  rintro _ assigned ⟨rfl, grows, all⟩
  apply Follows.bind
  apply (exportIndices_follows state assigned resolved).mono
  rintro _ _ ⟨put, rfl, _, shipped⟩
  apply Follows.bind
  apply (putObject_follows .cluster _).mono
  rintro _ _ rfl
  apply Follows.bind
  apply (putObject_follows .summary _).mono
  rintro _ _ rfl
  have fresh : ∀ s ∈ manifest.snapshots, s.name ≠ snapName := by
    intro s member same
    apply unused
    rw [List.any_eq_true]
    exact ⟨s, member, decide_eq_true same⟩
  let entry : SnapshotEntry := ⟨snapName, snapUuid, .success, resolved, start, finish⟩
  have changes : Changes manifest (some snapUuid)
      (snapSummaryKey snapUuid :: clusterKey snapUuid :: put)
      { assigned with snapshots := assigned.snapshots ++ [entry] } := by
    apply Changes.created entry fresh rfl
    · rw [grows.1]
    · exact grows.2
    · intro index member
      obtain ⟨uuid, here⟩ := Option.isSome_iff_exists.mp (all index member)
      have keys := shipped index member
      rw [RootManifest.indexUuid, here, Option.getD_some] at keys
      exact ⟨uuid, here, List.mem_cons_of_mem _ (List.mem_cons_of_mem _ keys.1),
        List.mem_cons_of_mem _ (List.mem_cons_of_mem _ keys.2)⟩
  apply Follows.bind
  apply (writeManifest_follows changes).mono
  rintro _ _ rfl
  refine .pure ⟨_, _, rfl, ?_, fresh⟩
  rw [grows.1]

end Create

section Delete

variable {manifest : RootManifest} {etag : Option Nat}

theorem deleteIndexObjects_follows {entry : SnapshotEntry} (listed : entry ∈ manifest.snapshots)
    (next : RootManifest) (indices : List String) :
    Follows (.paired manifest etag none []) (deleteIndexObjects next entry.uuid indices)
      fun knowledge _ => knowledge = .paired manifest etag none [] := by
  induction indices with
  | nil => exact .pure rfl
  | cons index rest ih =>
    rw [deleteIndexObjects]
    split
    · exact ih
    · apply Follows.bind
      apply (deleteObject_follows listed (.index _)).mono
      rintro _ _ rfl
      apply Follows.bind
      apply (deleteObject_follows listed (.payload _)).mono
      rintro _ _ rfl
      exact ih

theorem deleteSnapshot_follows (repoName snapName : String) :
    Follows .nothing (deleteSnapshot repoName snapName) fun knowledge _ =>
      knowledge.ends (.deleted snapName (.ok ())) := by
  apply Follows.bind
  apply loadOrInitManifest_follows.mono
  rintro _ ⟨manifest, etag⟩ rfl
  dsimp only
  split
  · exact .throw (unwritten_paired _ _ _ _)
  rename_i entry found
  have listed := List.mem_of_find?_eq_some found
  apply Follows.bind
  apply (deleteIndexObjects_follows listed _ _).mono
  rintro _ _ rfl
  apply Follows.bind
  apply (deleteObject_follows listed .cluster).mono
  rintro _ _ rfl
  apply Follows.bind
  apply (deleteObject_follows listed .summary).mono
  rintro _ _ rfl
  apply Follows.bind
  have changes : Changes manifest none []
      { manifest with snapshots := manifest.snapshots.eraseP fun s => s.name = snapName } :=
    .deleted snapName rfl rfl
  apply (writeManifest_follows changes).mono
  rintro _ _ rfl
  exact .pure ⟨_, _, rfl, rfl⟩

end Delete

/-- Every call obeys the protocol. -/
theorem SnapshotCall.program_obeys (call : SnapshotCall) :
    Program.Obeys Knowledge.learn Knowledge.may Knowledge.ends .nothing call.program := by
  cases call with
  | create repoName snapName indices includeGlobalState start finish state =>
    apply Program.Obeys.bind
    apply Program.Obeys.mono
      (createSnapshot_follows state repoName snapName indices includeGlobalState start finish)
    rintro knowledge (error | entry) result
    · exact result
    · exact result
  | delete repoName snapName =>
    apply Program.Obeys.bind
    apply Program.Obeys.mono (deleteSnapshot_follows repoName snapName)
    rintro knowledge (error | entry) result
    · exact result
    · exact result

end Surch.Snapshot
