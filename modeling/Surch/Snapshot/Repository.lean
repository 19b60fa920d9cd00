import Surch.Api.InMemoryIndex
import Surch.Lib.Program

/-! The snapshot repository: objects under their keys, and the root manifest `index-0` that is only
changed by compare-and-set. -/
namespace Surch.Snapshot
open Surch.Lib Surch.Api

/- The text of an `Uuid::new_v4`: hexadecimal digits and dashes. -/
structure Uuid where
  text : List Char
  plain : '/' ∉ text

instance : DecidableEq Uuid := fun a b =>
  decidable_of_iff (a.text = b.text) ⟨fun same => by cases a; cases b; cases same; rfl, congrArg _⟩

section Keys

def rootManifestKey : String := "index-0"

def objectKey (folder kind : List Char) (snapshot : Uuid) : String :=
  String.ofList (folder ++ (kind ++ (snapshot.text ++ ".dat".toList)))

def indexFolder (index : Uuid) : List Char := "indices/".toList ++ (index.text ++ ['/'])

def metaKey (index snapshot : Uuid) : String :=
  objectKey (indexFolder index) "meta-".toList snapshot

def payloadKey (index snapshot : Uuid) : String :=
  objectKey (indexFolder index) "__snap-".toList snapshot

def clusterKey (snapshot : Uuid) : String := objectKey [] "meta-".toList snapshot

def snapSummaryKey (snapshot : Uuid) : String := objectKey [] "snap-".toList snapshot

inductive KeyOf (snapshot : Uuid) : String → Prop
  | index (index : Uuid) : KeyOf snapshot (metaKey index snapshot)
  | payload (index : Uuid) : KeyOf snapshot (payloadKey index snapshot)
  | cluster : KeyOf snapshot (clusterKey snapshot)
  | summary : KeyOf snapshot (snapSummaryKey snapshot)

theorem file_of_objectKey {folder folder' file file' : List Char}
    (ends : folder = [] ∨ ∃ start, folder = start ++ ['/'])
    (ends' : folder' = [] ∨ ∃ start, folder' = start ++ ['/'])
    (plain : '/' ∉ file) (plain' : '/' ∉ file') (same : folder ++ file = folder' ++ file') :
    file = file' := by
  have last {folder file : List Char} (ends : folder = [] ∨ ∃ start, folder = start ++ ['/'])
      (plain : '/' ∉ file) : (folder ++ file).reverse.takeWhile (· ≠ '/') = file.reverse := by
    have all : ∀ c ∈ file.reverse, decide (c ≠ '/') = true := by
      intro c member
      apply decide_eq_true
      rintro rfl
      exact plain (List.mem_reverse.mp member)
    rw [List.reverse_append, List.takeWhile_append_of_pos all]
    rcases ends with rfl | ⟨start, rfl⟩
    · simp
    · simp
  have reversed := last ends plain
  rw [same, last ends' plain'] at reversed
  exact (List.reverse_injective reversed).symm

theorem KeyOf.unique {snapshot snapshot' : Uuid} {key : String} (first : KeyOf snapshot key)
    (second : KeyOf snapshot' key) : snapshot = snapshot' := by
  have shape {snapshot : Uuid} (of : KeyOf snapshot key) : ∃ folder kind,
      (folder = [] ∨ ∃ start, folder = start ++ ['/']) ∧
      kind ∈ ["meta-".toList, "__snap-".toList, "snap-".toList] ∧
      key.toList = folder ++ (kind ++ (snapshot.text ++ ".dat".toList)) := by
    have folders (index : Uuid) : ∃ start, indexFolder index = start ++ ['/'] :=
      ⟨"indices/".toList ++ index.text, (List.append_assoc _ _ _).symm⟩
    cases of with
    | index index => exact ⟨_, "meta-".toList, .inr (folders index), by simp, String.toList_ofList⟩
    | payload index =>
      exact ⟨_, "__snap-".toList, .inr (folders index), by simp, String.toList_ofList⟩
    | cluster => exact ⟨[], "meta-".toList, .inl rfl, by simp, String.toList_ofList⟩
    | summary => exact ⟨[], "snap-".toList, .inl rfl, by simp, String.toList_ofList⟩
  have plain {kind : List Char} (member : kind ∈ ["meta-".toList, "__snap-".toList, "snap-".toList])
      (snapshot : Uuid) : '/' ∉ kind ++ (snapshot.text ++ ".dat".toList) := by
    have kinds : ∀ kind ∈ ["meta-".toList, "__snap-".toList, "snap-".toList], '/' ∉ kind := by decide
    rw [List.mem_append, List.mem_append, not_or, not_or]
    exact ⟨kinds kind member, snapshot.plain, by decide⟩
  obtain ⟨folder, kind, ends, member, written⟩ := shape first
  obtain ⟨folder', kind', ends', member', written'⟩ := shape second
  have file := file_of_objectKey ends ends' (plain member snapshot) (plain member' snapshot')
    (written.symm.trans written')
  have same_kind : kind = kind' := by
    simp only [List.mem_cons, List.not_mem_nil, or_false] at member member'
    rcases member with rfl | rfl | rfl <;> rcases member' with rfl | rfl | rfl <;>
      first | rfl | simp at file
  rw [same_kind] at file
  have texts := List.append_cancel_right (List.append_cancel_left file)
  cases snapshot
  cases snapshot'
  cases texts
  rfl

end Keys

section Objects

inductive SnapshotState where
  | inProgress
  | success
  | failed
  | partialMissing
deriving DecidableEq

structure SnapshotEntry where
  name : String
  uuid : Uuid
  state : SnapshotState
  indices : List String
  startTimeMillis : Int
  endTimeMillis : Int
deriving DecidableEq

/- The indices are those that the repository has seen, with the uuid in their paths. -/
structure RootManifest where
  snapshots : List SnapshotEntry
  indices : SortedMap String Uuid
  minVersion : Nat
deriving DecidableEq

def RootManifest.default : RootManifest := ⟨[], .empty, 0⟩

structure ClusterMetadata where
  formatVersion : Nat
  surchVersion : String
  snapshot : String
  uuid : Uuid
  indices : List String
  startTimeMillis : Int
  endTimeMillis : Int
  includeGlobalState : Bool

structure IndexSnapshotMetadata where
  formatVersion : Nat
  index : String
  snapshotUuid : Uuid
  mapping : Value
  settings : Value
  aliases : List (String × Value)
  docCount : Nat

structure SnapSummaryIndex where
  name : String
  uuid : Uuid
  metaKey : String
  payloadKey : String

structure SnapSummary where
  formatVersion : Nat
  name : String
  uuid : Uuid
  indices : List SnapSummaryIndex
  startTimeMillis : Int
  endTimeMillis : Int

/- What is put under a key; `serde_json` writes all but the tarball. -/
inductive SnapshotObject where
  | indexMetadata (metadata : IndexSnapshotMetadata)
  | payload (tarball : List UInt8)
  | clusterMetadata (metadata : ClusterMetadata)
  | summary (summary : SnapSummary)

end Objects

section Requests

inductive RepositoryError where
  | notFound (key : String)
  | casConflict (key : String) (expected found : Option Nat)
  | io (key : String)
deriving DecidableEq

inductive RepositoryRequest where
  | getManifest
  | readEtag
  | newUuid
  | putObject (key : String) (object : SnapshotObject)
  | deleteObject (key : String)
  | compareAndSet (expected : Option Nat) (manifest : RootManifest)

abbrev RepositoryAnswer : RepositoryRequest → Type
  | .getManifest => Except RepositoryError RootManifest
  | .readEtag => Except RepositoryError (Option Nat)
  | .newUuid => Uuid
  | .putObject _ _ => Except RepositoryError Unit
  | .deleteObject _ => Except RepositoryError Unit
  | .compareAndSet _ _ => Except RepositoryError Nat

/- The manifest with its etag, the objects, how many etags were given out, and how many uuids drawn. -/
structure Repository where
  manifest : Option (RootManifest × Nat)
  objects : SortedMap String SnapshotObject
  etags : Nat
  drawn : Nat

namespace Repository

def empty : Repository := ⟨none, .empty, 0, 0⟩

variable (repo : Repository)

def etag : Option Nat := repo.manifest.map Prod.snd

/- A failed call changes nothing; a compare-and-set that goes through has a new etag. -/
def serve (uuids : Nat → Uuid) (failed : Bool) :
    (q : RepositoryRequest) → Repository → RepositoryAnswer q × Repository
  | .getManifest, repo =>
    (if failed then .error (.io rootManifestKey)
      else match repo.manifest with
        | none => .error (.notFound rootManifestKey)
        | some (manifest, _) => .ok manifest, repo)
  | .readEtag, repo => (if failed then .error (.io rootManifestKey) else .ok repo.etag, repo)
  | .newUuid, repo => (uuids repo.drawn, { repo with drawn := repo.drawn + 1 })
  | .putObject key object, repo =>
    if failed then (.error (.io key), repo)
    else (.ok (), { repo with objects := repo.objects.upsert key fun _ => object })
  | .deleteObject key, repo =>
    if failed then (.error (.io key), repo)
    else if (repo.objects.get? key).isNone then (.error (.notFound key), repo)
    else (.ok (), { repo with objects := repo.objects.erase key })
  | .compareAndSet expected manifest, repo =>
    if failed then (.error (.io rootManifestKey), repo)
    else if repo.etag ≠ expected then
      (.error (.casConflict rootManifestKey expected repo.etag), repo)
    else (.ok (repo.etags + 1),
      { repo with manifest := some (manifest, repo.etags + 1), etags := repo.etags + 1 })

end Repository

end Requests

end Surch.Snapshot
