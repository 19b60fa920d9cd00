import Surch.Snapshot.RoundTrip

/-! `restore_snapshot`: the indices of a snapshot are made one after the other, and one that cannot be made
ends the call with those before it in the store. -/
namespace Surch.Snapshot
open Surch.Lib Surch.Index Surch.Api

section Restoring

inductive RestoreError where
  | service (error : SnapshotServiceError)
  | serde (message : String)

/- What a restore can read of a repository: the manifest, which need not parse, its etag, and the tarball
under a key, whose entries need not be readable. -/
structure RepositoryView where
  manifest : Except RepositoryError (Except String RootManifest)
  etag : Except RepositoryError (Option Nat)
  payload : String → Except RepositoryError (TarballResult Tarball)

def RepositoryView.load (view : RepositoryView) : Except RestoreError RootManifest :=
  match view.manifest with
  | .ok (.ok manifest) =>
    match view.etag with
    | .ok _ => .ok manifest
    | .error error => .error (.service (.repository error))
  | .ok (.error message) => .error (.serde message)
  | .error (.notFound _) => .ok .default
  | .error other => .error (.service (.repository other))

def wantedIndices (entry : SnapshotEntry) : Option (List String) → List String
  | none => entry.indices
  | some list => if list.isEmpty ∨ list = ["*"] then entry.indices else list

variable (encodings : Encodings) (unicode : Unicode) (view : RepositoryView)

section Loop

variable (manifest : RootManifest) (entry : SnapshotEntry)

def restoreIndex (catalog : Catalog) (index : String) : ServiceResult Catalog :=
  if catalog.indexExists index then
    .error (.badRequest s!"cannot restore index [{index}] because it already exists")
  else match manifest.indices.get? index with
    | none => .error (.indexMissing index)
    | some idxUuid =>
      match view.payload (payloadKey idxUuid entry.uuid) with
      | .error error => .error (.repository error)
      | .ok payload =>
        match payload >>= restoreIndexTarballForEsSnapshot encodings unicode catalog index with
        | .error message => .error (.badRequest message)
        | .ok (_, restored) => .ok restored

def restoreIndices : Catalog → List String → ServiceResult (List String) × Catalog
  | catalog, [] => (.ok [], catalog)
  | catalog, index :: rest =>
    match restoreIndex encodings unicode view manifest entry catalog index with
    | .error error => (.error error, catalog)
    | .ok restored =>
      let (names, after) := restoreIndices restored rest
      (names.map (index :: ·), after)

end Loop

def restoreSnapshot (repoName snapName : String) (indicesSelector : Option (List String))
    (catalog : Catalog) : Except RestoreError (List String) × Catalog :=
  match view.load with
  | .error error => (.error error, catalog)
  | .ok manifest =>
    match manifest.snapshots.find? fun s => s.name = snapName with
    | none => (.error (.service (.snapshotMissing repoName snapName)), catalog)
    | some entry =>
      let (names, after) := restoreIndices encodings unicode view manifest entry catalog
        (wantedIndices entry indicesSelector)
      (names.mapError .service, after)

end Restoring

section Outcome

/- One store holds the indices of the other and, new among them, the selected ones. -/
structure CreatedExactly (before after : Catalog) (selected : List String) : Prop where
  distinct : selected.Nodup
  fresh : ∀ name ∈ selected, before.indexExists name = false
  others : ∀ name, name ∉ selected → after.indices.get? name = before.indices.get? name

variable (encodings : Encodings) (unicode : Unicode) (view : RepositoryView) (manifest : RootManifest)
  (entry : SnapshotEntry)

def Readable (index : String) (parsed : ParsedSnapshot) : Prop :=
  ∃ idxUuid body, manifest.indices.get? index = some idxUuid ∧
    view.payload (payloadKey idxUuid entry.uuid) = .ok (.ok body) ∧
    parseTarball encodings unicode body = .ok parsed ∧
    parsed.manifest.formatVersion = snapshotFormatVersion

def HasDocuments (after : Catalog) (restored : List String) : Prop :=
  ∀ index ∈ restored, ∃ parsed data, Readable encodings unicode view manifest entry index parsed ∧
    after.indices.get? index = some data ∧ data.documents = Ledger.empty.replay parsed.documents

/- The wanted indices are restored up to the first that is there already or has no tarball to read, and
only if there is none such the call goes through. -/
def RestoresUpTo (before : Catalog) (wanted : List String)
    (outcome : ServiceResult (List String) × Catalog) : Prop :=
  ∃ restored rest, wanted = restored ++ rest ∧ CreatedExactly before outcome.2 restored ∧
    HasDocuments encodings unicode view manifest entry outcome.2 restored ∧
    match rest with
    | [] => outcome.1 = .ok wanted
    | index :: _ => (outcome.2.indexExists index = true ∨
        ∀ parsed, ¬ Readable encodings unicode view manifest entry index parsed) ∧
        ∃ error, outcome.1 = .error error

end Outcome

section Steps

variable {encodings : Encodings} {unicode : Unicode} {view : RepositoryView} {manifest : RootManifest}
  {entry : SnapshotEntry} {catalog : Catalog}

theorem get?_indexDocuments_other {index other : String} {data : StoredIndex}
    (found : catalog.indices.get? index = some data) (different : other ≠ index)
    (documents : List (String × Value)) :
    (indexDocuments catalog index documents).indices.get? other = catalog.indices.get? other := by
  induction documents generalizing catalog data with
  | nil => rfl
  | cons document rest ih =>
    have there : catalog.indexExists index = true := by rw [Catalog.indexExists, found]; rfl
    have same : (catalog.indexDocument index document.1 document.2).indices.get? other =
        catalog.indices.get? other := by
      rw [Catalog.indexDocument, Catalog.ensureIndex_of_exists there, Catalog.get?_modify, if_neg different]
    exact (ih (get?_indexDocument found document.1 document.2).1).trans same

def withRestored (catalog : Catalog) (index : String) (parsed : ParsedSnapshot) : Catalog :=
  indexDocuments (catalog.createIndex index (some parsed.mapping) parsed.settings parsed.aliases) index
    parsed.documents

theorem get?_withRestored {index : String} (free : catalog.indexExists index = false)
    (parsed : ParsedSnapshot) :
    (∃ data, (withRestored catalog index parsed).indices.get? index = some data ∧
        data.documents = Ledger.empty.replay parsed.documents) ∧
      ∀ other, other ≠ index →
        (withRestored catalog index parsed).indices.get? other = catalog.indices.get? other := by
  obtain ⟨mapping, settings, aliases, made⟩ : ∃ mapping settings aliases,
      catalog.createIndex index (some parsed.mapping) parsed.settings parsed.aliases =
        (catalog.put index (.new mapping settings)).insertAliases index aliases := by
    rw [Catalog.createIndex, Catalog.createIndexIfMissing, if_neg (by rw [free]; exact Bool.false_ne_true)]
    exact ⟨_, _, _, rfl⟩
  have found (name : String) : ((catalog.put index (.new mapping settings)).insertAliases index
      aliases).indices.get? name =
        if name = index then some (.new mapping settings) else catalog.indices.get? name := by
    rw [(Catalog.indices_insertAliases index aliases).1, Catalog.get?_put]
  have here := (found index).trans (if_pos rfl)
  rw [withRestored, made]
  constructor
  · exact ⟨_, (get?_indexDocuments here parsed.documents).1, rfl⟩
  · intro other different
    rw [get?_indexDocuments_other here different, found, if_neg different]

theorem restoreIndex_ok {index : String} {restored : Catalog} :
    restoreIndex encodings unicode view manifest entry catalog index = .ok restored ↔
      catalog.indexExists index = false ∧
        ∃ parsed, Readable encodings unicode view manifest entry index parsed ∧
          restored = withRestored catalog index parsed := by
  unfold restoreIndex Readable
  cases there : catalog.indexExists index with
  | true => simp
  | false =>
    cases known : manifest.indices.get? index with
    | none => simp
    | some idxUuid =>
      cases fetched : view.payload (payloadKey idxUuid entry.uuid) with
      | error error => simp [fetched]
      | ok payload =>
        cases payload with
        | error message => simp [fetched, bind, Except.bind]
        | ok body =>
          cases parsed : parseTarball encodings unicode body with
          | error message =>
            simp [fetched, parsed, bind, Except.bind, restoreIndexTarballForEsSnapshot, there]
          | ok snapshot =>
            by_cases version : snapshot.manifest.formatVersion = snapshotFormatVersion
            · simp [fetched, parsed, bind, Except.bind, restoreIndexTarballForEsSnapshot, there, version,
                pure, Except.pure, withRestored, eq_comm]
            · simp [fetched, parsed, bind, Except.bind, restoreIndexTarballForEsSnapshot, there, version]

/-- The loop leaves in the store just the indices before the first failure, whole. -/
theorem restoreIndices_up_to (wanted : List String) :
    RestoresUpTo encodings unicode view manifest entry catalog wanted
      (restoreIndices encodings unicode view manifest entry catalog wanted) := by
  induction wanted generalizing catalog with
  | nil => exact ⟨[], [], rfl, ⟨List.nodup_nil, nofun, fun _ _ => rfl⟩, nofun, rfl⟩
  | cons index rest ih =>
    cases first : restoreIndex encodings unicode view manifest entry catalog index with
    | error error =>
      rw [restoreIndices, first]
      refine ⟨[], index :: rest, rfl, ⟨List.nodup_nil, nofun, fun _ _ => rfl⟩, nofun, ?_, error, rfl⟩
      cases there : catalog.indexExists index with
      | true => exact .inl rfl
      | false =>
        refine .inr fun parsed readable => ?_
        rw [restoreIndex_ok.mpr ⟨there, parsed, readable, rfl⟩] at first
        cases first
    | ok next =>
      obtain ⟨free, parsed, readable, rfl⟩ := restoreIndex_ok.mp first
      obtain ⟨⟨data, here, documents⟩, unchanged⟩ := get?_withRestored free parsed
      have tail := @ih (withRestored catalog index parsed)
      rw [restoreIndices, first]
      dsimp only
      generalize restoreIndices encodings unicode view manifest entry (withRestored catalog index parsed) rest =
        outcome at tail ⊢
      obtain ⟨names, after⟩ := outcome
      obtain ⟨restored, later, split, ⟨distinct, fresh, others⟩, copied, ends⟩ := tail
      have absent : index ∉ restored := by
        intro again
        have free_again := fresh index again
        rw [Catalog.indexExists, here] at free_again
        cases free_again
      refine ⟨index :: restored, later, by rw [split]; rfl, ⟨List.nodup_cons.mpr ⟨absent, distinct⟩, ?_, ?_⟩,
        List.forall_mem_cons.mpr ⟨⟨parsed, data, readable, (others index absent).trans here, documents⟩, copied⟩,
        ?_⟩
      · refine List.forall_mem_cons.mpr ⟨free, fun name member => ?_⟩
        have different : name ≠ index := fun same => absent (same ▸ member)
        have fresh_name := fresh name member
        rwa [Catalog.indexExists, unchanged name different] at fresh_name
      · intro name outside
        obtain ⟨different, outside⟩ := not_or.mp (List.mem_cons.not.mp outside)
        exact (others name outside).trans (unchanged name different)
      · cases later with
        | nil =>
          dsimp only at ends
          rw [ends]
          rfl
        | cons last _ =>
          obtain ⟨stuck, error, failed⟩ := ends
          dsimp only at failed
          rw [failed]
          exact ⟨stuck, error, rfl⟩

end Steps

/-- A manifest that is not read, or one without the snapshot, leaves the store as it is. Otherwise the store
gains just the indices of the selection before the first that fails, each once and with the documents of its
tarball. -/
theorem restored_up_to (encodings : Encodings) (unicode : Unicode) (view : RepositoryView)
    (repoName snapName : String) (indicesSelector : Option (List String)) (catalog : Catalog) :
    let outcome := restoreSnapshot encodings unicode view repoName snapName indicesSelector catalog
    (∃ error, view.load = .error error ∧ outcome = (.error error, catalog)) ∨
    (∃ manifest, view.load = .ok manifest ∧ (∀ listed ∈ manifest.snapshots, listed.name ≠ snapName) ∧
      outcome = (.error (.service (.snapshotMissing repoName snapName)), catalog)) ∨
      ∃ manifest entry names, view.load = .ok manifest ∧
        (manifest.snapshots.find? fun s => s.name = snapName) = some entry ∧
        outcome.1 = names.mapError .service ∧
        RestoresUpTo encodings unicode view manifest entry catalog (wantedIndices entry indicesSelector)
          (names, outcome.2) := by
  unfold restoreSnapshot
  cases loaded : view.load with
  | error error => exact .inl ⟨error, rfl, rfl⟩
  | ok manifest =>
    cases found : manifest.snapshots.find? fun s => s.name = snapName with
    | none =>
      have unlisted : ∀ listed ∈ manifest.snapshots, listed.name ≠ snapName := by
        simpa using List.find?_eq_none.mp found
      simp only [found]
      exact .inr (.inl ⟨manifest, rfl, unlisted, trivial⟩)
    | some entry =>
      simp only [found]
      exact .inr (.inr ⟨manifest, entry, _, rfl, found, rfl, restoreIndices_up_to _⟩)

end Surch.Snapshot
