import Surch.Snapshot.Listing

/-! The objects of the listed snapshots: a creation lists a snapshot after its objects are there, but a
deletion takes the objects away before the manifest says so. -/
namespace Surch.Snapshot
open Surch.Lib

section Objects

variable (uuids : Nat → Uuid)

def Repository.Issued (repo : Repository) (uuid : Uuid) : Prop := ∃ n < repo.drawn, uuid = uuids n

def Repository.Holds (repo : Repository) (key : String) : Prop := key ∈ repo.objects.keys

/- The metadata and the payload of every index of the snapshot are there. -/
def Repository.Restorable (repo : Repository) (manifest : RootManifest) (entry : SnapshotEntry) : Prop :=
  ∀ index ∈ entry.indices, ∃ uuid ∈ manifest.indices.get? index,
    repo.Holds (metaKey uuid entry.uuid) ∧ repo.Holds (payloadKey uuid entry.uuid)

instance (repo : Repository) (manifest : RootManifest) (entry : SnapshotEntry) :
    Decidable (repo.Restorable manifest entry) := by
  unfold Repository.Restorable Repository.Holds
  infer_instance

def Stocked (repo : Repository) : Prop :=
  ∀ manifest etag, repo.manifest = some (manifest, etag) → ∀ entry ∈ manifest.snapshots,
    repo.Restorable manifest entry ∧ repo.Issued uuids entry.uuid

def Knowledge.read : Knowledge → List SnapshotEntry
  | .loaded manifest => manifest.snapshots
  | .paired manifest _ _ _ => manifest.snapshots
  | _ => []

def Knowledge.own : Knowledge → Option Uuid
  | .paired _ _ own _ => own
  | _ => none

def Knowledge.put : Knowledge → List String
  | .paired _ _ _ put => put
  | _ => []

/- What a call knows about the objects: its snapshot uuid is nobody else's, and what it has put under
that uuid is there. -/
structure Prepared (repo : Repository) (knowledge : Knowledge) : Prop where
  read_issued : ∀ entry ∈ knowledge.read, repo.Issued uuids entry.uuid
  own_issued : ∀ uuid ∈ knowledge.own, repo.Issued uuids uuid
  own_unlisted : ∀ uuid ∈ knowledge.own, ∀ entry ∈ repo.listed, entry.uuid ≠ uuid
  own_unread : ∀ uuid ∈ knowledge.own, ∀ entry ∈ knowledge.read, entry.uuid ≠ uuid
  put_own : ∀ key ∈ knowledge.put, ∃ uuid ∈ knowledge.own, KeyOf uuid key ∧ repo.Holds key

/- Nothing that one call has read or drawn has the uuid that the other one has drawn. -/
def Clear (knowledge other : Knowledge) : Prop :=
  ∀ uuid ∈ knowledge.own, other.own ≠ some uuid ∧ ∀ entry ∈ other.read, entry.uuid ≠ uuid

def Repository.listedKeys (repo : Repository) : List String :=
  match repo.manifest with
  | none => []
  | some (manifest, _) => manifest.snapshots.flatMap fun entry => entry.indices.flatMap fun index =>
    match manifest.indices.get? index with
    | none => []
    | some uuid => [metaKey uuid entry.uuid, payloadKey uuid entry.uuid]

/- No update of the manifest between `get_object` and `read_etag`, and no deletion that takes an object
of an index from a snapshot that is still listed. -/
def Careful (repo : Repository) (knowledge : Knowledge) (q : RepositoryRequest) (failed : Bool) : Prop :=
  Steady repo knowledge q failed ∧
    match q with
    | .deleteObject key => failed = true ∨ key ∉ repo.listedKeys
    | _ => True

instance (repo : Repository) (knowledge : Knowledge) (q : RepositoryRequest) (failed : Bool) :
    Decidable (Careful repo knowledge q failed) := by
  unfold Careful
  cases q <;> infer_instance

end Objects

section Serving

variable {uuids : Nat → Uuid} {repo after : Repository} {manifest : RootManifest}
  {entry : SnapshotEntry} {knowledge other : Knowledge}

theorem mem_listedKeys {etag : Nat} (found : repo.manifest = some (manifest, etag))
    (listed : entry ∈ manifest.snapshots) {index : String} (inside : index ∈ entry.indices)
    {uuid : Uuid} (here : manifest.indices.get? index = some uuid) :
    metaKey uuid entry.uuid ∈ repo.listedKeys ∧ payloadKey uuid entry.uuid ∈ repo.listedKeys := by
  unfold Repository.listedKeys
  rw [found]
  have both {key : String} (member : key ∈ [metaKey uuid entry.uuid, payloadKey uuid entry.uuid]) :
      key ∈ manifest.snapshots.flatMap fun entry => entry.indices.flatMap fun index =>
        match manifest.indices.get? index with
        | none => []
        | some uuid => [metaKey uuid entry.uuid, payloadKey uuid entry.uuid] := by
    apply List.mem_flatMap.mpr
    refine ⟨entry, listed, List.mem_flatMap.mpr ⟨index, inside, ?_⟩⟩
    rw [here]
    exact member
  exact ⟨both List.mem_cons_self, both (List.mem_cons_of_mem _ List.mem_cons_self)⟩

theorem Repository.Issued.mono {uuid : Uuid} (issued : repo.Issued uuids uuid)
    (more : repo.drawn ≤ after.drawn) : after.Issued uuids uuid := by
  obtain ⟨n, below, same⟩ := issued
  exact ⟨n, by omega, same⟩

theorem Prepared.of_kept (prepared : Prepared uuids repo knowledge) (after : Repository)
    (drawn : repo.drawn ≤ after.drawn)
    (listed : ∀ uuid ∈ knowledge.own, ∀ entry ∈ after.listed, entry.uuid ≠ uuid)
    (kept : ∀ key ∈ knowledge.put, repo.Holds key → after.Holds key) :
    Prepared uuids after knowledge := by
  constructor
  · exact fun entry member => (prepared.read_issued entry member).mono drawn
  · exact fun uuid own => (prepared.own_issued uuid own).mono drawn
  · exact listed
  · exact prepared.own_unread
  · intro key member
    obtain ⟨uuid, own, of, here⟩ := prepared.put_own key member
    exact ⟨uuid, own, of, kept key member here⟩

theorem Stocked.of_kept (stocked : Stocked uuids repo) (drawn : repo.drawn ≤ after.drawn)
    (same : after.manifest = repo.manifest)
    (kept : ∀ key ∈ repo.listedKeys, repo.Holds key → after.Holds key) : Stocked uuids after := by
  intro manifest etag found entry listed
  rw [same] at found
  obtain ⟨restorable, issued⟩ := stocked manifest etag found entry listed
  refine ⟨?_, issued.mono drawn⟩
  intro index inside
  obtain ⟨uuid, here, meta_here, payload_here⟩ := restorable index inside
  obtain ⟨meta_listed, payload_listed⟩ := mem_listedKeys found listed inside here
  exact ⟨uuid, here, kept _ meta_listed meta_here, kept _ payload_listed payload_here⟩

theorem serve_objects (uuids : Nat → Uuid) (repo : Repository) (q : RepositoryRequest) (failed : Bool)
    (other : ∀ expected next, q ≠ .compareAndSet expected next) :
    repo.drawn ≤ (repo.serve uuids failed q).2.drawn ∧
      ∀ key, repo.Holds key → (failed = false → q ≠ .deleteObject key) →
        (repo.serve uuids failed q).2.Holds key := by
  cases q with
  | compareAndSet expected next => exact absurd rfl (other expected next)
  | getManifest => exact ⟨le_refl _, fun _ here _ => here⟩
  | readEtag => exact ⟨le_refl _, fun _ here _ => here⟩
  | newUuid => exact ⟨Nat.le_succ _, fun _ here _ => here⟩
  | putObject key object =>
    cases failed with
    | true => exact ⟨le_refl _, fun _ here _ => here⟩
    | false =>
      refine ⟨le_refl _, ?_⟩
      intro old here _
      exact (repo.objects.mem_keys_upsert key old _).mpr (.inr here)
  | deleteObject key =>
    cases failed with
    | true => exact ⟨le_refl _, fun _ here _ => here⟩
    | false =>
      cases found : repo.objects.get? key with
      | none =>
        have refused : repo.serve uuids false (.deleteObject key) =
            (.error (.notFound key), repo) := by simp [Repository.serve, found]
        rw [refused]
        exact ⟨le_refl _, fun _ here _ => here⟩
      | some object =>
        have erased : repo.serve uuids false (.deleteObject key) =
            (.ok (), { repo with objects := repo.objects.erase key }) := by
          simp [Repository.serve, found]
        rw [erased]
        refine ⟨le_refl _, ?_⟩
        intro old here spared
        obtain ⟨value, held⟩ := (SortedMap.mem_keys_iff _ _).mp here
        refine (SortedMap.mem_keys_iff _ _).mpr ⟨value, ?_⟩
        rw [SortedMap.get?_erase, if_neg, held]
        rintro rfl
        exact spared rfl rfl

end Serving

section Rules

variable {uuids : Nat → Uuid} {repo : Repository} {knowledge other : Knowledge}
  {q : RepositoryRequest} {failed : Bool}

theorem Prepared.of_nothing_owned (own : knowledge.own = none) (put : knowledge.put = [])
    (issued : ∀ entry ∈ knowledge.read, repo.Issued uuids entry.uuid) :
    Prepared uuids repo knowledge := by
  constructor
  · exact issued
  · rw [own]
    exact nofun
  · rw [own]
    exact nofun
  · rw [own]
    exact nofun
  · rw [put]
    exact nofun

theorem Stocked.listed_issued (stocked : Stocked uuids repo) {entry : SnapshotEntry}
    (member : entry ∈ repo.listed) : repo.Issued uuids entry.uuid := by
  unfold Repository.listed at member
  cases found : repo.manifest with
  | none =>
    rw [found] at member
    cases member
  | some now =>
    rw [found] at member
    exact (stocked now.1 now.2 found entry member).2

theorem Repository.Issued.ne_next (injective : Function.Injective uuids) {uuid : Uuid}
    (issued : repo.Issued uuids uuid) : uuid ≠ uuids repo.drawn := by
  obtain ⟨n, below, rfl⟩ := issued
  exact fun same => absurd (injective same) (by omega)

theorem deleted_of_other (may : knowledge.may q) (prepared : Prepared uuids repo other)
    (unread : ∀ uuid ∈ other.own, ∀ entry ∈ knowledge.read, entry.uuid ≠ uuid) {key : String}
    (put : key ∈ other.put) : q ≠ .deleteObject key := by
  rintro rfl
  cases knowledge with
  | paired manifest etag own keys =>
    obtain ⟨entry, member, of⟩ := may
    obtain ⟨uuid, own, of', _⟩ := prepared.put_own key put
    exact unread uuid own entry member (of.unique of')
  | _ => cases may

theorem prepared_own (injective : Function.Injective uuids) (stocked : Stocked uuids repo)
    (prepared : Prepared uuids repo knowledge) (may : knowledge.may q) :
    Prepared uuids (repo.serve uuids failed q).2
      (knowledge.learn q (repo.serve uuids failed q).1) := by
  cases knowledge with
  | nothing =>
    cases q with
    | getManifest =>
      cases failed with
      | true => exact .of_nothing_owned rfl rfl (List.forall_mem_nil _)
      | false =>
        cases found : repo.manifest with
        | none =>
          have answer : repo.serve uuids false .getManifest =
              (.error (.notFound rootManifestKey), repo) := by simp [Repository.serve, found]
          rw [answer]
          exact .of_nothing_owned rfl rfl (List.forall_mem_nil _)
        | some now =>
          have answer : repo.serve uuids false .getManifest = (.ok now.1, repo) := by
            simp [Repository.serve, found]
          rw [answer]
          apply Prepared.of_nothing_owned rfl rfl
          exact fun entry member => (stocked now.1 now.2 found entry member).2
    | _ => cases may
  | loaded manifest =>
    cases q with
    | readEtag =>
      cases failed with
      | true => exact .of_nothing_owned rfl rfl (List.forall_mem_nil _)
      | false => exact .of_nothing_owned rfl rfl prepared.read_issued
    | _ => cases may
  | paired manifest etag own put =>
    have unread := prepared.own_unread
    cases q with
    | newUuid =>
      have kept : Prepared uuids { repo with drawn := repo.drawn + 1 } (.paired manifest etag own put) :=
        prepared.of_kept _ (Nat.le_succ _) prepared.own_unlisted fun _ _ => id
      cases own with
      | some uuid => exact kept
      | none =>
        constructor
        · exact kept.read_issued
        · rintro _ ⟨⟩
          exact ⟨repo.drawn, Nat.lt_succ_self _, rfl⟩
        · rintro _ ⟨⟩ entry member
          exact (stocked.listed_issued member).ne_next injective
        · rintro _ ⟨⟩ entry member
          exact (prepared.read_issued entry member).ne_next injective
        · intro key member
          obtain ⟨uuid, ⟨⟩, _⟩ := prepared.put_own key member
    | putObject key object =>
      cases failed with
      | true => exact prepared
      | false =>
        obtain ⟨uuid, rfl, of⟩ := may
        have kept := prepared.of_kept
          { repo with objects := repo.objects.upsert key fun _ => object } (le_refl _) prepared.own_unlisted
          fun old _ here => (repo.objects.mem_keys_upsert key old _).mpr (.inr here)
        constructor
        · exact kept.read_issued
        · exact kept.own_issued
        · exact kept.own_unlisted
        · exact kept.own_unread
        · intro other member
          rcases List.mem_cons.mp member with rfl | old
          · exact ⟨uuid, rfl, of, (repo.objects.mem_keys_upsert _ _ _).mpr (.inl rfl)⟩
          · exact kept.put_own other old
    | deleteObject key =>
      have objects := serve_objects uuids repo (.deleteObject key) failed (by simp)
      have manifest_kept := serve_manifest uuids repo (.deleteObject key) failed (by simp)
      apply prepared.of_kept _ objects.1
      · intro uuid own entry member
        rw [Repository.listed, manifest_kept.1] at member
        exact prepared.own_unlisted uuid own entry member
      · intro old member here
        apply objects.2 old here
        exact fun _ => deleted_of_other may prepared unread member
    | compareAndSet expected next =>
      generalize repo.serve uuids failed (.compareAndSet expected next) = served
      obtain ⟨answer, after⟩ := served
      rcases answer with (error | etag) <;> exact .of_nothing_owned rfl rfl (List.forall_mem_nil _)
    | _ => cases may
  | ended written => cases q <;> cases may

/-- A manifest that is written lists what was listed, and at most the snapshot that the call has drawn. -/
theorem written_unlisted {manifest next : RootManifest} {etag : Option Nat} {own : Option Uuid}
    {put : List String} (changes : Changes manifest own put next)
    (clear : Clear other (.paired manifest etag own put)) :
    ∀ uuid ∈ other.own, ∀ entry ∈ next.snapshots, entry.uuid ≠ uuid := by
  intro uuid drawn entry member
  obtain ⟨apart, unread⟩ := clear uuid drawn
  cases changes with
  | created added fresh mine snapshots grown shipped =>
    rw [snapshots] at member
    rcases List.mem_append.mp member with old | new
    · exact unread entry old
    · rw [List.mem_singleton.mp new]
      rintro rfl
      exact apart mine
  | deleted snapName snapshots indices =>
    rw [snapshots] at member
    exact unread entry (List.mem_of_mem_eraseP member)

theorem prepared_others (may : knowledge.may q) (prepared : Prepared uuids repo other)
    (clear : Clear other knowledge) : Prepared uuids (repo.serve uuids failed q).2 other := by
  by_cases cas : ∃ expected next, q = .compareAndSet expected next
  · obtain ⟨expected, next, rfl⟩ := cas
    obtain ⟨manifest, own, put, rfl, changes⟩ := Knowledge.may_compareAndSet may
    rcases serve_compareAndSet uuids repo failed expected next with ⟨_, refused⟩ | ⟨_, written⟩
    · rw [refused]
      exact prepared
    · rw [written]
      exact prepared.of_kept _ (le_refl _) (written_unlisted changes clear) fun _ _ => id
  · have not_cas := fun expected next same => cas ⟨expected, next, same⟩
    have objects := serve_objects uuids repo q failed not_cas
    have manifest_kept := serve_manifest uuids repo q failed not_cas
    apply prepared.of_kept _ objects.1
    · intro uuid own entry member
      rw [Repository.listed, manifest_kept.1] at member
      exact prepared.own_unlisted uuid own entry member
    · intro key member here
      apply objects.2 key here
      exact fun _ => deleted_of_other may prepared (fun uuid own => (clear uuid own).2) member

theorem clear_learn (injective : Function.Injective uuids) (may : knowledge.may q)
    (prepared : Prepared uuids repo other) (clear : Clear knowledge other)
    (clear' : Clear other knowledge) :
    Clear (knowledge.learn q (repo.serve uuids failed q).1) other ∧
      Clear other (knowledge.learn q (repo.serve uuids failed q).1) := by
  have unrelated {now : Knowledge} (own : now.own = none)
      (unread : ∀ uuid ∈ other.own, ∀ entry ∈ now.read, entry.uuid ≠ uuid) :
      Clear now other ∧ Clear other now := by
    constructor
    · intro uuid drawn
      rw [own] at drawn
      cases drawn
    · intro uuid drawn
      rw [own]
      exact ⟨Option.not_mem_none uuid, unread uuid drawn⟩
  cases knowledge with
  | nothing =>
    cases q with
    | getManifest =>
      cases failed with
      | true => exact unrelated rfl fun _ _ => List.forall_mem_nil _
      | false =>
        cases found : repo.manifest with
        | none =>
          have answer : repo.serve uuids false .getManifest =
              (.error (.notFound rootManifestKey), repo) := by simp [Repository.serve, found]
          rw [answer]
          exact unrelated rfl fun _ _ => List.forall_mem_nil _
        | some now =>
          have answer : repo.serve uuids false .getManifest = (.ok now.1, repo) := by
            simp [Repository.serve, found]
          rw [answer]
          apply unrelated rfl
          intro uuid drawn entry member
          apply prepared.own_unlisted uuid drawn
          rw [Repository.listed, found]
          exact member
    | _ => cases may
  | loaded manifest =>
    cases q with
    | readEtag =>
      cases failed with
      | true => exact unrelated rfl fun _ _ => List.forall_mem_nil _
      | false => exact unrelated rfl fun uuid drawn => (clear' uuid drawn).2
    | _ => cases may
  | paired manifest etag own put =>
    cases q with
    | newUuid =>
      cases own with
      | some uuid => exact ⟨clear, clear'⟩
      | none =>
        constructor
        · rintro _ ⟨⟩
          constructor
          · intro same
            exact (prepared.own_issued _ same).ne_next injective rfl
          · exact fun entry member => (prepared.read_issued entry member).ne_next injective
        · intro uuid drawn
          refine ⟨?_, (clear' uuid drawn).2⟩
          rintro ⟨⟩
          exact (prepared.own_issued _ drawn).ne_next injective rfl
    | putObject key object => cases failed <;> exact ⟨clear, clear'⟩
    | deleteObject key =>
      generalize (repo.serve uuids failed (.deleteObject key)).1 = answer
      rcases answer with (error | _) <;> exact ⟨clear, clear'⟩
    | compareAndSet expected next =>
      generalize (repo.serve uuids failed (.compareAndSet expected next)).1 = answer
      rcases answer with (error | _) <;> exact unrelated rfl fun _ _ => List.forall_mem_nil _
    | _ => cases may
  | ended written => cases q <;> cases may

/-- The listed snapshots stay restorable: a new one has its objects there, and no deletion touches an
object of one that is listed. -/
theorem stocked_step (stocked : Stocked uuids repo) (current : Current repo knowledge)
    (prepared : Prepared uuids repo knowledge) (may : knowledge.may q)
    (careful : Careful repo knowledge q failed) : Stocked uuids (repo.serve uuids failed q).2 := by
  by_cases cas : ∃ expected next, q = .compareAndSet expected next
  · obtain ⟨expected, next, rfl⟩ := cas
    obtain ⟨manifest, own, put, rfl, changes⟩ := Knowledge.may_compareAndSet may
    rcases serve_compareAndSet uuids repo failed expected next with ⟨_, refused⟩ | ⟨same, written⟩
    · rw [refused]
      exact stocked
    · rw [written]
      obtain ⟨listed, read⟩ := current.listed same
      have before {entry : SnapshotEntry} (member : entry ∈ manifest.snapshots) :
          repo.Restorable manifest entry ∧ repo.Issued uuids entry.uuid := by
        rw [← listed] at member
        unfold Repository.listed at member
        cases found : repo.manifest with
        | none =>
          rw [found] at member
          cases member
        | some now =>
          rw [found] at member read
          cases read now.1 rfl
          exact stocked now.1 now.2 found entry member
      rintro _ _ ⟨⟩ entry member
      cases changes with
      | created added fresh mine snapshots grown shipped =>
        rw [snapshots] at member
        rcases List.mem_append.mp member with old | new
        · obtain ⟨restorable, issued⟩ := before old
          refine ⟨?_, issued⟩
          intro index inside
          obtain ⟨uuid, here, objects⟩ := restorable index inside
          exact ⟨uuid, grown index uuid here, objects⟩
        · cases List.mem_singleton.mp new
          refine ⟨?_, prepared.own_issued _ mine⟩
          intro index inside
          obtain ⟨uuid, here, meta_put, payload_put⟩ := shipped index inside
          obtain ⟨_, _, _, meta_here⟩ := prepared.put_own _ meta_put
          obtain ⟨_, _, _, payload_here⟩ := prepared.put_own _ payload_put
          exact ⟨uuid, here, meta_here, payload_here⟩
      | deleted snapName snapshots indices =>
        rw [snapshots] at member
        obtain ⟨restorable, issued⟩ := before (List.mem_of_mem_eraseP member)
        refine ⟨?_, issued⟩
        intro index inside
        rw [indices]
        exact restorable index inside
  · have not_cas := fun expected next same => cas ⟨expected, next, same⟩
    have objects := serve_objects uuids repo q failed not_cas
    apply stocked.of_kept objects.1 (serve_manifest uuids repo q failed not_cas).1
    intro key listed here
    apply objects.2 key here
    rintro served rfl
    rcases careful.2 with gone | spared
    · rw [served] at gone
      cases gone
    · exact spared listed

theorem blob_rules (injective : Function.Injective uuids) :
    (snapshotService uuids).Rules Knowledge.may Knowledge.ends
      (fun repo returned _ => Listed repo returned ∧ Stocked uuids repo)
      (fun repo knowledge => Current repo knowledge ∧ Prepared uuids repo knowledge)
      (fun knowledge other => Clear knowledge other ∧ Clear other knowledge)
      (fun repo _ => Careful repo) where
  obeys := SnapshotCall.program_obeys
  fresh_knows _ := ⟨trivial, .of_nothing_owned rfl rfl nofun⟩
  fresh_apart _ := ⟨fun _ _ => ⟨nofun, nofun⟩, nofun⟩
  fresh_shared _ _ _ := id
  apart_symm _ _ clear := ⟨clear.2, clear.1⟩
  own _ _ _ _ _ _ shared knows may careful :=
    ⟨current_own shared.1 knows.1 may careful.1, prepared_own injective shared.2 knows.2 may⟩
  others _ _ _ _ _ _ _ _ _ may _ knows clear :=
    ⟨⟨current_others knows.1, prepared_others may knows.2 clear.2⟩,
      clear_learn injective may knows.2 clear.1 clear.2⟩
  goes_on _ _ _ _ _ _ _ _ _ shared knows may careful more :=
    ⟨listed_goes_on shared.1 may more, stocked_step shared.2 knows.1 knows.2 may careful⟩
  returns _ _ _ _ _ _ _ _ _ shared knows may careful ends :=
    ⟨listed_returns shared.1 knows.1 may ends, stocked_step shared.2 knows.1 knows.2 may careful⟩

/-- While no deletion takes an object from a listed snapshot, every listed snapshot can be restored,
however creations and deletions interleave and whichever of their requests fail or are never made. -/
theorem listed_restorable (uuids : Nat → Uuid) (injective : Function.Injective uuids)
    (events : List (PoolEvent SnapshotCall))
    (careful : Admitted (Pool.step (snapshotService uuids)) (Pool.Allows fun repo _ => Careful repo)
      SnapshotPool.start events) :
    let repo := (runEvents (Pool.step (snapshotService uuids)) events SnapshotPool.start).store
    ∀ manifest etag, repo.manifest = some (manifest, etag) → ∀ entry ∈ manifest.snapshots,
      repo.Restorable manifest entry := by
  have initial : Pool.Sound (snapshotService uuids) Knowledge.may Knowledge.ends
      (fun repo returned _ => Listed repo returned ∧ Stocked uuids repo)
      (fun repo knowledge => Current repo knowledge ∧ Prepared uuids repo knowledge)
      (fun knowledge other => Clear knowledge other ∧ Clear other knowledge) SnapshotPool.start :=
    ⟨nofun, nofun, fun _ _ _ _ _ => nofun, ⟨rfl, List.nodup_nil, nofun⟩, nofun⟩
  have sound := initial.run (blob_rules injective) careful
  intro repo manifest etag found entry listed
  exact (sound.shared.2 manifest etag found entry listed).1

end Rules

section Examples

theorem plainUuids_injective : Function.Injective plainUuids := by
  intro m n same
  simpa [plainUuids] using congrArg (fun uuid => uuid.text.length) same

def booksView : StateView where
  indexNames := ["books"]
  indexExists name := name = "books"
  index name := if name = "books" then some ⟨.null, .null, [], 0, .ok []⟩ else none

def booksCreation (snapName : String) : SnapshotCall :=
  .create "backups" snapName ["books"] false 0 0 booksView

/- A creation, one whose last object is refused, and a deletion that stops before it deletes. -/
theorem listed_restorable_two :
    let events := [.start (booksCreation "monday")] ++ advances 0 8 ++
      [.start (booksCreation "tuesday"), .start (.delete "backups" "monday")] ++ advances 1 6 ++
      [.advance 1 true] ++ advances 2 2
    let repo := (runEvents (Pool.step (snapshotService plainUuids)) events SnapshotPool.start).store
    ∀ manifest etag, repo.manifest = some (manifest, etag) → ∀ entry ∈ manifest.snapshots,
      repo.Restorable manifest entry :=
  listed_restorable plainUuids plainUuids_injective _ (by decide +kernel)

def refusedDeletion : SnapshotReturn → Option (String × SnapshotServiceError)
  | .deleted snapName (.error error) => some (snapName, error)
  | _ => none

/-- A deletion takes the objects away, another update of the manifest lands, and the deletion returns an
error: the snapshot is listed and cannot be restored. -/
theorem deletion_refused :
    let events := [.start (booksCreation "monday")] ++ advances 0 8 ++
      [.start (.delete "backups" "monday"), .start (booksCreation "tuesday")] ++ advances 1 6 ++
      advances 2 8 ++ advances 1 1
    let w := runEvents (Pool.step (snapshotService plainUuids)) events SnapshotPool.start
    w.returned.getLast?.bind refusedDeletion =
        some ("monday", .repository (.casConflict rootManifestKey (some 1) (some 2))) ∧
      ∃ manifest ∈ w.store.manifest, ∃ entry ∈ manifest.1.snapshots,
      entry.name = "monday" ∧ ¬ w.store.Restorable manifest.1 entry := by
  decide +kernel

end Examples

end Surch.Snapshot
