import Surch.Snapshot.Repository

/-! `create_snapshot` and `delete_snapshot` as the calls they make on a repository, one after the
other. -/
namespace Surch.Snapshot
open Surch.Lib Surch.Api

inductive SnapshotServiceError where
  | snapshotMissing (repo snap : String)
  | snapshotAlreadyExists (repo snap : String)
  | badRequest (message : String)
  | indexMissing (name : String)
  | repository (error : RepositoryError)
deriving DecidableEq

abbrev ServiceResult (α : Type) := Except SnapshotServiceError α

abbrev RepositoryProgram (α : Type) := Program RepositoryRequest RepositoryAnswer α

abbrev ServiceProgram (α : Type) := ExceptT SnapshotServiceError (Program RepositoryRequest RepositoryAnswer) α

/- What a snapshot takes from an index: its metadata, and its documents in a tarball. -/
structure IndexView where
  mapping : Value
  settings : Value
  aliases : List (String × Value)
  docCount : Nat
  tarball : Except String (List UInt8)

structure StateView where
  indexNames : List String
  indexExists : String → Bool
  index : String → Option IndexView

section Requests

def getManifest : RepositoryProgram (Except RepositoryError RootManifest) :=
  Program.request RepositoryRequest.getManifest
def readEtag : ServiceProgram (Option Nat) :=
  ExceptT.mk do
    let answer ← Program.request RepositoryRequest.readEtag
    return answer.mapError .repository
def newUuid : ServiceProgram Uuid := ExceptT.lift (Program.request RepositoryRequest.newUuid)
def putObject (key : String) (object : SnapshotObject) : ServiceProgram Unit :=
  ExceptT.mk do
    let answer ← Program.request (RepositoryRequest.putObject key object)
    return answer.mapError .repository

/- `let _ = repo.delete_object(..)`: a failure is ignored. -/
def deleteObject (key : String) : ServiceProgram Unit :=
  ExceptT.mk do
    let _ ← Program.request (RepositoryRequest.deleteObject key)
    return .ok ()

end Requests

section Manifests

def esSnapshotFormatVersion : Nat := 1
def surchVersion : String := "0.1.0"

def loadOrInitManifest : ServiceProgram (RootManifest × Option Nat) :=
  ExceptT.mk do
    let answer ← getManifest
    match answer with
    | .ok manifest => (do
      let etag ← readEtag
      return (manifest, etag) : ServiceProgram (RootManifest × Option Nat))
    | .error (.notFound _) => return .ok (.default, none)
    | .error other => return .error (.repository other)

def writeManifest (manifest : RootManifest) (expectedEtag : Option Nat) : ServiceProgram Nat :=
  ExceptT.mk do
    let answer ← Program.request (RepositoryRequest.compareAndSet expectedEtag manifest)
    return answer.mapError .repository

end Manifests

section Create

variable (state : StateView)

/- `*` or nothing is every index; an index that is not there refuses the rest. -/
def resolveIndices (indices : List String) : ServiceResult (List String) :=
  if indices.isEmpty ∨ indices = ["*"] then .ok state.indexNames
  else match indices.find? fun name => !state.indexExists name with
    | some name => .error (.indexMissing name)
    | none => .ok indices

/- Every index keeps the uuid it has, or gets one. -/
def assignUuids : RootManifest → List String → ServiceProgram RootManifest
  | manifest, [] => return manifest
  | manifest, index :: rest =>
    match manifest.indices.get? index with
    | some _ => assignUuids manifest rest
    | none => do
      let uuid ← newUuid
      assignUuids { manifest with indices := manifest.indices.upsert index fun _ => uuid } rest

/- `expect("index uuid just inserted")`. -/
def RootManifest.indexUuid (manifest : RootManifest) (index : String) : Uuid :=
  (manifest.indices.get? index).getD ⟨[], List.not_mem_nil⟩

def exportIndices (manifest : RootManifest) (snapUuid : Uuid) : List String → ServiceProgram Unit
  | [] => return ()
  | index :: rest =>
    match state.index index with
    | none => throw (.indexMissing index)
    | some view => do
      let idxUuid := manifest.indexUuid index
      putObject (metaKey idxUuid snapUuid) (.indexMetadata {
        formatVersion := esSnapshotFormatVersion
        index
        snapshotUuid := snapUuid
        mapping := view.mapping
        settings := view.settings
        aliases := view.aliases
        docCount := view.docCount })
      match view.tarball with
      | .error message => throw (.badRequest message)
      | .ok payload => do
        putObject (payloadKey idxUuid snapUuid) (.payload payload)
        exportIndices manifest snapUuid rest

def snapSummary (manifest : RootManifest) (entry : SnapshotEntry) : SnapSummary where
  formatVersion := esSnapshotFormatVersion
  name := entry.name
  uuid := entry.uuid
  indices := entry.indices.map fun index => {
    name := index
    uuid := manifest.indexUuid index
    metaKey := metaKey (manifest.indexUuid index) entry.uuid
    payloadKey := payloadKey (manifest.indexUuid index) entry.uuid }
  startTimeMillis := entry.startTimeMillis
  endTimeMillis := entry.endTimeMillis

def createSnapshot (repoName snapName : String) (indices : List String) (includeGlobalState : Bool)
    (start finish : Int) : ServiceProgram SnapshotEntry := do
  let (manifest, etag) ← loadOrInitManifest
  if manifest.snapshots.any fun s => s.name = snapName then
    throw (.snapshotAlreadyExists repoName snapName)
  else
    match resolveIndices state indices with
    | .error error => throw error
    | .ok resolved =>
      let snapUuid ← newUuid
      let manifest ← assignUuids manifest resolved
      exportIndices state manifest snapUuid resolved
      let entry : SnapshotEntry := {
        name := snapName
        uuid := snapUuid
        state := .success
        indices := resolved
        startTimeMillis := start
        endTimeMillis := finish }
      putObject (clusterKey snapUuid) (.clusterMetadata {
        formatVersion := esSnapshotFormatVersion
        surchVersion
        snapshot := snapName
        uuid := snapUuid
        indices := resolved
        startTimeMillis := start
        endTimeMillis := finish
        includeGlobalState })
      putObject (snapSummaryKey snapUuid) (.summary (snapSummary manifest entry))
      let _ ← writeManifest { manifest with snapshots := manifest.snapshots ++ [entry] } etag
      return entry

end Create

section Delete

def deleteIndexObjects (manifest : RootManifest) (snapshot : Uuid) : List String → ServiceProgram Unit
  | [] => return ()
  | index :: rest =>
    match manifest.indices.get? index with
    | none => deleteIndexObjects manifest snapshot rest
    | some idxUuid => do
      deleteObject (metaKey idxUuid snapshot)
      deleteObject (payloadKey idxUuid snapshot)
      deleteIndexObjects manifest snapshot rest

def deleteSnapshot (repoName snapName : String) : ServiceProgram Unit := do
  let (manifest, etag) ← loadOrInitManifest
  match manifest.snapshots.find? fun s => s.name = snapName with
  | none => throw (.snapshotMissing repoName snapName)
  | some entry =>
    let manifest := { manifest with snapshots := manifest.snapshots.eraseP fun s => s.name = snapName }
    deleteIndexObjects manifest entry.uuid entry.indices
    deleteObject (clusterKey entry.uuid)
    deleteObject (snapSummaryKey entry.uuid)
    let _ ← writeManifest manifest etag
    return ()

end Delete

inductive SnapshotCall where
  | create (repoName snapName : String) (indices : List String) (includeGlobalState : Bool)
    (start finish : Int) (state : StateView)
  | delete (repoName snapName : String)

inductive SnapshotReturn where
  | created (result : ServiceResult SnapshotEntry)
  | deleted (snapName : String) (result : ServiceResult Unit)

def SnapshotCall.program : SnapshotCall → RepositoryProgram SnapshotReturn
  | .create repoName snapName indices includeGlobalState start finish state => do
    let result ← (createSnapshot state repoName snapName indices includeGlobalState start finish).run
    return .created result
  | .delete repoName snapName => do
    let result ← (deleteSnapshot repoName snapName).run
    return .deleted snapName result

end Surch.Snapshot
