import Surch.Snapshot.Calls

/-! What the root manifest lists while creations and deletions run side by side: the snapshots whose
creation has returned and whose deletion has not. -/
namespace Surch.Snapshot
open Surch.Lib

def snapshotService (uuids : Nat → Uuid) :
    Service RepositoryRequest RepositoryAnswer SnapshotReturn Knowledge Repository SnapshotCall where
  program := SnapshotCall.program
  serve := Repository.serve uuids
  fresh := .nothing
  learn := Knowledge.learn

abbrev SnapshotPool := Pool RepositoryRequest RepositoryAnswer SnapshotReturn Knowledge Repository

def SnapshotPool.start : SnapshotPool := ⟨.empty, [], []⟩

section Listing

def Repository.listed (repo : Repository) : List SnapshotEntry :=
  (repo.manifest.map fun manifest => manifest.1.snapshots).getD []

/- What a result says about the listing; an error says nothing. -/
def SnapshotReturn.replay (listed : List SnapshotEntry) : SnapshotReturn → List SnapshotEntry
  | .created (.ok entry) => listed ++ [entry]
  | .deleted snapName (.ok ()) => listed.filter fun s => s.name ≠ snapName
  | .created (.error _) => listed
  | .deleted _ (.error _) => listed

/- The snapshots whose creation returned `Ok`, without those whose deletion did later. -/
def listing (returned : List SnapshotReturn) : List SnapshotEntry :=
  returned.foldl SnapshotReturn.replay []

theorem listing_append (returned : List SnapshotReturn) (result : SnapshotReturn) :
    listing (returned ++ [result]) = result.replay (listing returned) := by
  rw [listing, List.foldl_append]
  rfl

structure Listed (repo : Repository) (returned : List SnapshotReturn) : Prop where
  listed : repo.listed = listing returned
  distinct : (repo.listed.map SnapshotEntry.name).Nodup
  issued : ∀ manifest etag, repo.manifest = some (manifest, etag) → etag ≤ repo.etags

/- What a call knows about the manifest: with its etag unchanged, it is the one that the call has read. -/
def Current (repo : Repository) : Knowledge → Prop
  | .paired manifest (some etag) _ _ =>
    etag ≤ repo.etags ∧ ∀ now, repo.manifest = some (now, etag) → now = manifest
  | .paired manifest none _ _ => manifest = .default
  | _ => True

/- No update of the manifest between a call's `get_object` and its `read_etag`. -/
def Steady (repo : Repository) : Knowledge → RepositoryRequest → Bool → Prop
  | .loaded manifest, .readEtag, failed => failed = true ∨ repo.manifest.map Prod.fst = some manifest
  | _, _, _ => True

instance (repo : Repository) (knowledge : Knowledge) (q : RepositoryRequest) (failed : Bool) :
    Decidable (Steady repo knowledge q failed) := by
  unfold Steady
  split <;> infer_instance

end Listing

section Serving

variable (uuids : Nat → Uuid) (repo : Repository)

theorem serve_manifest (q : RepositoryRequest) (failed : Bool)
    (other : ∀ expected next, q ≠ .compareAndSet expected next) :
    (repo.serve uuids failed q).2.manifest = repo.manifest ∧
      (repo.serve uuids failed q).2.etags = repo.etags := by
  cases q with
  | compareAndSet expected next => exact absurd rfl (other expected next)
  | getManifest => exact ⟨rfl, rfl⟩
  | readEtag => exact ⟨rfl, rfl⟩
  | newUuid => exact ⟨rfl, rfl⟩
  | putObject key object => cases failed <;> exact ⟨rfl, rfl⟩
  | deleteObject key =>
    cases failed with
    | true => exact ⟨rfl, rfl⟩
    | false => cases found : repo.objects.get? key <;> simp [Repository.serve, found]

/-- A compare-and-set that is refused changes nothing; the other ones find the etag they expect. -/
theorem serve_compareAndSet (failed : Bool) (expected : Option Nat) (next : RootManifest) :
    (∃ error, repo.serve uuids failed (.compareAndSet expected next) = (.error error, repo)) ∨
      (repo.etag = expected ∧ repo.serve uuids failed (.compareAndSet expected next) =
        (.ok (repo.etags + 1),
          { repo with manifest := some (next, repo.etags + 1), etags := repo.etags + 1 })) := by
  unfold Repository.serve
  cases failed with
  | true => exact .inl ⟨_, rfl⟩
  | false =>
    by_cases conflict : repo.etag ≠ expected
    · exact .inl ⟨.casConflict rootManifestKey expected repo.etag, by simp [conflict]⟩
    · exact .inr ⟨not_not.mp conflict, by simp [conflict]⟩

theorem eraseP_name {listed : List SnapshotEntry} (distinct : (listed.map SnapshotEntry.name).Nodup)
    (snapName : String) : (listed.eraseP fun s => s.name = snapName) =
      listed.filter fun s => s.name ≠ snapName := by
  induction listed with
  | nil => rfl
  | cons first rest ih =>
    obtain ⟨absent, distinct⟩ := List.nodup_cons.mp distinct
    by_cases here : first.name = snapName
    · rw [List.eraseP_cons_of_pos (by simpa using here), List.filter_cons_of_neg (by simpa using here)]
      symm
      apply List.filter_eq_self.mpr
      intro s member
      apply decide_eq_true
      rintro same
      exact absent (List.mem_map.mpr ⟨s, member, same.trans here.symm⟩)
    · rw [List.eraseP_cons_of_neg (by simpa using here), List.filter_cons_of_pos (by simpa using here),
        ih distinct]

end Serving

section Rules

variable {uuids : Nat → Uuid} {repo : Repository} {returned : List SnapshotReturn}
  {knowledge other : Knowledge} {q : RepositoryRequest} {failed : Bool}

theorem Current.of_same {after : Repository} (current : Current repo knowledge)
    (same : after.manifest = repo.manifest ∧ after.etags = repo.etags) : Current after knowledge := by
  unfold Current at current ⊢
  split
  · rw [same.1, same.2]
    exact current
  · exact current
  · trivial

theorem Current.listed {manifest : RootManifest} {etag : Option Nat} {own : Option Uuid}
    {put : List String} (current : Current repo (.paired manifest etag own put))
    (same : repo.etag = etag) : repo.listed = manifest.snapshots ∧
      ∀ now, repo.manifest.map Prod.fst = some now → now = manifest := by
  unfold Repository.etag at same
  unfold Repository.listed
  cases here : repo.manifest with
  | none =>
    rw [here] at same
    cases same
    rw [show manifest = .default from current]
    exact ⟨rfl, nofun⟩
  | some now =>
    rw [here] at same
    cases same
    have read := current.2 now.1 here
    refine ⟨congrArg RootManifest.snapshots read, ?_⟩
    rintro _ ⟨⟩
    exact read

theorem Current.any_objects {manifest : RootManifest} {etag : Option Nat} {own own' : Option Uuid}
    {put put' : List String} (current : Current repo (.paired manifest etag own put)) :
    Current repo (.paired manifest etag own' put') := by
  cases etag <;> exact current

theorem current_own (listed : Listed repo returned) (current : Current repo knowledge)
    (may : knowledge.may q) (steady : Steady repo knowledge q failed) :
    Current (repo.serve uuids failed q).2
      (knowledge.learn q (repo.serve uuids failed q).1) := by
  cases knowledge with
  | nothing =>
    cases q with
    | getManifest =>
      generalize (repo.serve uuids failed .getManifest).1 = answer
      rcases answer with (error | manifest)
      · cases error with
        | notFound key => rfl
        | _ => trivial
      · trivial
    | _ => cases may
  | loaded manifest =>
    cases q with
    | readEtag =>
      cases failed with
      | true => trivial
      | false =>
        have here := steady.resolve_left nofun
        obtain ⟨⟨_, etag⟩, found, rfl⟩ := Option.map_eq_some_iff.mp here
        change Current repo (.paired _ repo.etag none [])
        rw [Repository.etag, found]
        refine ⟨listed.issued _ _ found, ?_⟩
        intro now same
        cases found.symm.trans same
        rfl
    | _ => cases may
  | paired manifest etag own put =>
    cases q with
    | newUuid => exact current.any_objects.of_same (serve_manifest uuids repo _ failed nofun)
    | putObject key object =>
      have kept := current.of_same (serve_manifest uuids repo (.putObject key object) failed nofun)
      cases failed with
      | true => exact kept
      | false => exact kept.any_objects
    | deleteObject key => exact current.of_same (serve_manifest uuids repo _ failed nofun)
    | compareAndSet expected next =>
      generalize repo.serve uuids failed (.compareAndSet expected next) = served
      obtain ⟨answer, after⟩ := served
      rcases answer with (error | etag)
      · trivial
      · trivial
    | _ => cases may
  | ended written => cases q <;> cases may

theorem current_others (current : Current repo other) :
    Current (repo.serve uuids failed q).2 other := by
  by_cases cas : ∃ expected next, q = .compareAndSet expected next
  · obtain ⟨expected, next, rfl⟩ := cas
    rcases serve_compareAndSet uuids repo failed expected next with
      ⟨_, refused⟩ | ⟨_, written⟩
    · rw [refused]
      exact current
    · rw [written]
      -- The new etag is above all that were read before.
      unfold Current at current ⊢
      split
      · refine ⟨current.1.trans (Nat.le_succ _), ?_⟩
        rintro now ⟨⟩
        omega
      · exact current
      · trivial
  · apply current.of_same (serve_manifest uuids repo q failed _)
    intro expected next same
    exact cas ⟨expected, next, same⟩

theorem Listed.of_same {after : Repository} (listed : Listed repo returned)
    (same : after.manifest = repo.manifest ∧ after.etags = repo.etags) : Listed after returned := by
  constructor
  · rw [Repository.listed, same.1]
    exact listed.listed
  · rw [Repository.listed, same.1]
    exact listed.distinct
  · rw [same.1, same.2]
    exact listed.issued

theorem Listed.unwritten {result : SnapshotReturn} (listed : Listed repo returned)
    (ends : knowledge.ends result) (unwritten : knowledge.Unwritten) :
    Listed repo (returned ++ [result]) := by
  have same : listing (returned ++ [result]) = listing returned := by
    rw [listing_append]
    rcases result with ⟨_ | entry⟩ | ⟨snapName, _ | _⟩
    · rfl
    · obtain ⟨_, _, written, _⟩ := ends
      exact absurd written (unwritten _)
    · rfl
    · obtain ⟨_, _, written, _⟩ := ends
      exact absurd written (unwritten _)
  exact ⟨listed.listed.trans same.symm, listed.distinct, listed.issued⟩

theorem listed_goes_on {q' : RepositoryRequest} (listed : Listed repo returned)
    (may : knowledge.may q)
    (more : (knowledge.learn q (repo.serve uuids failed q).1).may q') :
    Listed (repo.serve uuids failed q).2 returned := by
  by_cases cas : ∃ expected next, q = .compareAndSet expected next
  · obtain ⟨expected, next, rfl⟩ := cas
    obtain ⟨manifest, own, put, rfl, _⟩ := Knowledge.may_compareAndSet may
    generalize (repo.serve uuids failed (.compareAndSet expected next)).1 = answer at more
    rcases answer with (error | etag) <;> cases q' <;> cases more
  · exact listed.of_same (serve_manifest uuids repo q failed fun expected next same => cas ⟨expected, next, same⟩)

theorem listed_returns {result : SnapshotReturn} (listed : Listed repo returned)
    (current : Current repo knowledge) (may : knowledge.may q)
    (ends : (knowledge.learn q (repo.serve uuids failed q).1).ends result) :
    Listed (repo.serve uuids failed q).2 (returned ++ [result]) := by
  by_cases cas : ∃ expected next, q = .compareAndSet expected next
  · obtain ⟨expected, next, rfl⟩ := cas
    obtain ⟨manifest, own, put, rfl, _⟩ := Knowledge.may_compareAndSet may
    rcases serve_compareAndSet uuids repo failed expected next with
      ⟨error, refused⟩ | ⟨same, written⟩
    · rw [refused] at ends ⊢
      exact listed.unwritten ends unwritten_ended
    · rw [written] at ends ⊢
      have read := (current.listed same).1
      have names := listed.distinct
      have before := listed.listed
      rw [read] at names before
      have replayed : next.snapshots = listing (returned ++ [result]) ∧
          (next.snapshots.map SnapshotEntry.name).Nodup := by
        rw [listing_append, ← before]
        rcases result with ⟨_ | entry⟩ | ⟨snapName, _ | _⟩
        · exact absurd rfl (ends _)
        · obtain ⟨_, _, ⟨⟩, snapshots, fresh⟩ := ends
          refine ⟨snapshots, ?_⟩
          rw [snapshots, List.map_append, List.nodup_append]
          refine ⟨names, List.nodup_singleton _, ?_⟩
          rintro name old other new rfl
          obtain ⟨s, member, rfl⟩ := List.mem_map.mp old
          exact fresh s member (List.mem_singleton.mp new)
        · exact absurd rfl (ends _)
        · obtain ⟨_, _, ⟨⟩, snapshots⟩ := ends
          rw [eraseP_name names] at snapshots
          refine ⟨snapshots, ?_⟩
          rw [snapshots]
          exact names.sublist (List.filter_sublist.map _)
      constructor
      · exact replayed.1
      · exact replayed.2
      · rintro now etag ⟨⟩
        exact le_refl _
  · have unwritten := Knowledge.learn_unwritten may (fun expected next same => cas ⟨expected, next, same⟩)
      (repo.serve uuids failed q).1
    have kept := listed.of_same (serve_manifest uuids repo q failed
      fun expected next same => cas ⟨expected, next, same⟩)
    exact kept.unwritten ends unwritten

/-- The rules for what is listed, while every manifest is paired with its own etag. -/
theorem listing_rules (uuids : Nat → Uuid) : (snapshotService uuids).Rules Knowledge.may Knowledge.ends
    (fun repo returned _ => Listed repo returned) Current (fun _ _ => True)
    (fun repo _ => Steady repo) where
  obeys := SnapshotCall.program_obeys
  fresh_knows _ := trivial
  fresh_apart _ := trivial
  fresh_shared _ _ _ := id
  apart_symm _ _ _ := trivial
  own _ _ _ _ _ _ listed current may steady := current_own listed current may steady
  others _ _ _ _ _ _ _ _ _ _ _ current _ := ⟨current_others current, trivial⟩
  goes_on _ _ _ _ _ _ _ _ _ listed _ may _ more := listed_goes_on listed may more
  returns _ _ _ _ _ _ _ _ _ listed current may _ ends := listed_returns listed current may ends

/-- However creations and deletions interleave, the manifest lists exactly the snapshots whose creation
has returned `Ok` and whose deletion has not since then, under distinct names. -/
theorem listed_snapshots (uuids : Nat → Uuid) (events : List (PoolEvent SnapshotCall))
    (steady : Admitted (Pool.step (snapshotService uuids)) (Pool.Allows fun repo _ => Steady repo)
      SnapshotPool.start events) :
    let w := runEvents (Pool.step (snapshotService uuids)) events SnapshotPool.start
    w.store.listed = listing w.returned ∧ (w.store.listed.map SnapshotEntry.name).Nodup := by
  have initial : Pool.Sound (snapshotService uuids) Knowledge.may Knowledge.ends
      (fun repo returned _ => Listed repo returned) Current (fun _ _ => True) SnapshotPool.start :=
    ⟨nofun, nofun, fun _ _ _ _ _ _ _ => trivial, rfl, List.nodup_nil, nofun⟩
  have sound := initial.run (listing_rules uuids) steady
  exact ⟨sound.shared.listed, sound.shared.distinct⟩

end Rules

section Examples

def plainUuids (n : Nat) : Uuid :=
  ⟨List.replicate n 'a', fun member => nomatch (List.mem_replicate.mp member).2⟩

def noIndices : StateView := ⟨[], fun _ => false, fun _ => none⟩

def creation (snapName : String) : SnapshotCall :=
  .create "backups" snapName [] false 0 0 noIndices

def advances (position count : Nat) : List (PoolEvent SnapshotCall) :=
  List.replicate count (.advance position false)

theorem listed_snapshots_two :
    let events := [.start (creation "monday")] ++ advances 0 5 ++
      [.start (creation "tuesday"), .start (.delete "backups" "monday")] ++ advances 1 2 ++
      advances 2 2 ++ advances 1 4 ++ advances 2 5
    let w := runEvents (Pool.step (snapshotService plainUuids)) events SnapshotPool.start
    w.store.listed = listing w.returned ∧ (w.store.listed.map SnapshotEntry.name).Nodup :=
  listed_snapshots plainUuids _ (by decide +kernel)

/-- One creation reads the manifest, another one adds its snapshot, and the first one then reads the new
etag: it writes the old listing over the new one. -/
theorem creation_lost :
    let events := [.start (creation "monday")] ++ advances 0 5 ++
      [.start (creation "tuesday"), .start (creation "wednesday")] ++ advances 1 1 ++ advances 2 6 ++
      advances 1 5
    let w := runEvents (Pool.step (snapshotService plainUuids)) events SnapshotPool.start
    (listing w.returned).map SnapshotEntry.name = ["monday", "wednesday", "tuesday"] ∧
      w.store.listed.map SnapshotEntry.name = ["monday", "tuesday"] := by
  decide +kernel

end Examples

end Surch.Snapshot
