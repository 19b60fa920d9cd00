import Mathlib.Data.List.Infix
import Surch.Lib.Session
import Surch.Snapshot.Coverage
import Surch.Snapshot.Tarball

/-! `create_snapshot` among the accesses of other requests to the indices. It reads the metadata and the
documents of an index one after the other, each under a lock of its own; what it keeps of the index is
what the index was at one moment where nobody changes it between the two. -/
namespace Surch.Snapshot
open Surch.Lib Surch.Index Surch.Api

variable {unicode : Unicode}

section Accesses

variable (unicode) in
inductive StateAccess where
  | indexNames
  | indexExists (index : String)
  | indexMetadata (index : String)
  | documents (index : String)
  | change (e : CatalogEvent unicode)

namespace StateAccess

abbrev Answer : StateAccess unicode → Type
  | .indexNames => List String
  | .indexExists _ => Bool
  | .indexMetadata _ => Option IndexMetadata
  | .documents _ => List (String × Value)
  | .change _ => Unit

/- An index that is not there has no metadata, but an empty list of documents. -/
def serve : (access : StateAccess unicode) → Catalog → access.Answer × Catalog
  | .indexNames, catalog => (catalog.indices.keys, catalog)
  | .indexExists index, catalog => (catalog.indexExists index, catalog)
  | .indexMetadata index, catalog => (Snapshot.indexMetadata catalog index, catalog)
  | .documents index, catalog => (documentsOf catalog index, catalog)
  | .change e, catalog => ((), e.step catalog)

end StateAccess

variable (unicode) in
abbrev StateProgram (α : Type) := Program (StateAccess unicode) StateAccess.Answer α

end Accesses

section Taking

structure IndexPayload where
  index : String
  metadata : IndexMetadata
  documents : List (String × Value)

/- What comes of the requests to the repository: of the manifest that is read first, of the objects of
each index, and of the summaries and the manifest that are written last. -/
structure RepositoryOutcome where
  loaded : ServiceResult Unit
  shipped : List IndexPayload → ServiceResult Unit
  written : List IndexPayload → ServiceResult Unit

variable (unicode) in
def missingName : List String → StateProgram unicode (Option String)
  | [] => return none
  | name :: rest => do
    if ← (Program.request (StateAccess.indexExists name) : StateProgram unicode Bool) then missingName rest
    else return some name

variable (unicode) in
def selectIndices (indices : List String) : StateProgram unicode (ServiceResult (List String)) := do
  if indices.isEmpty ∨ indices = ["*"] then
    let names ← (Program.request StateAccess.indexNames : StateProgram unicode _)
    return .ok names
  else
    match ← missingName unicode indices with
    | some name => return .error (.indexMissing name)
    | none => return .ok indices

variable (repository : RepositoryOutcome)

variable (unicode) in
def takeIndices : List IndexPayload → List String → StateProgram unicode (ServiceResult (List IndexPayload))
  | taken, [] => return (repository.written taken).map fun _ => taken
  | taken, index :: rest => do
    match ← (Program.request (StateAccess.indexMetadata index) : StateProgram unicode _) with
    | none => return .error (.indexMissing index)
    | some metadata =>
      let documents ← (Program.request (StateAccess.documents index) : StateProgram unicode _)
      let taken := taken ++ [⟨index, metadata, documents⟩]
      match repository.shipped taken with
      | .error error => return .error error
      | .ok () => takeIndices taken rest

variable (unicode) in
def takeSnapshot (indices : List String) : StateProgram unicode (ServiceResult (List IndexPayload)) := do
  match repository.loaded with
  | .error error => return .error error
  | .ok () =>
    match ← selectIndices unicode indices with
    | .error error => return .error error
    | .ok resolved => takeIndices unicode repository [] resolved

end Taking

section Knowledge

/- What a snapshot has packed up, and the index whose documents it reads next. -/
structure Taken where
  payloads : List IndexPayload
  opened : Option (String × IndexMetadata)

namespace Taken

def learn (taken : Taken) : (access : StateAccess unicode) → access.Answer → Taken
  | .indexMetadata index, some metadata => { taken with opened := some (index, metadata) }
  | .documents _, documents => match taken.opened with
    | some (index, metadata) => ⟨taken.payloads ++ [⟨index, metadata, documents⟩], none⟩
    | none => taken
  | _, _ => taken

/- The documents of an index are read right after its metadata. -/
def may (taken : Taken) : StateAccess unicode → Prop
  | .documents index => ∃ metadata, taken.opened = some (index, metadata)
  | .change _ => False
  | _ => taken.opened = none

def ends (taken : Taken) (result : ServiceResult (List IndexPayload)) : Prop :=
  ∀ payloads, result = .ok payloads → payloads = taken.payloads

end Taken

theorem obeys_missingName (names : List String) {taken : Taken} (closed : taken.opened = none) :
    Program.Obeys Taken.learn Taken.may (fun after _ => after = taken) taken (missingName unicode names) := by
  induction names with
  | nil => rfl
  | cons name rest ih =>
    refine ⟨closed, fun there => ?_⟩
    cases there with
    | true => exact ih
    | false => rfl

theorem obeys_selectIndices (indices : List String) {taken : Taken} (closed : taken.opened = none) :
    Program.Obeys Taken.learn Taken.may (fun after _ => after = taken) taken
      (selectIndices unicode indices) := by
  unfold selectIndices
  split
  · exact ⟨closed, fun _ => rfl⟩
  · apply Program.Obeys.bind
    apply (obeys_missingName indices closed).mono
    intro after missing same
    cases missing with
    | none => exact same
    | some name => exact same

theorem obeys_takeIndices (repository : RepositoryOutcome) (indices : List String) (payloads : List IndexPayload) :
    Program.Obeys Taken.learn Taken.may Taken.ends ⟨payloads, none⟩
      (takeIndices unicode repository payloads indices) := by
  induction indices generalizing payloads with
  | nil =>
    intro result same
    cases ended : repository.written payloads with
    | error error => simp [ended, Except.map] at same
    | ok _ =>
      simp only [ended, Except.map, Except.ok.injEq] at same
      exact same.symm
  | cons index rest ih =>
    refine ⟨rfl, fun found => ?_⟩
    cases found with
    | none => exact nofun
    | some metadata =>
      refine ⟨⟨metadata, rfl⟩, fun documents => ?_⟩
      change Program.Obeys Taken.learn Taken.may Taken.ends ⟨payloads ++ [⟨index, metadata, documents⟩], none⟩
        (match repository.shipped (payloads ++ [⟨index, metadata, documents⟩]) with
          | .error error => .done (.error error)
          | .ok () => takeIndices unicode repository (payloads ++ [⟨index, metadata, documents⟩]) rest)
      split
      · exact nofun
      · exact ih _

theorem obeys_takeSnapshot (repository : RepositoryOutcome) (indices : List String) :
    Program.Obeys Taken.learn Taken.may Taken.ends ⟨[], none⟩
      (takeSnapshot unicode repository indices) := by
  unfold takeSnapshot
  split
  · exact nofun
  · apply Program.Obeys.bind
    apply (obeys_selectIndices indices rfl).mono
    intro after resolved same
    cases same
    cases resolved with
    | error error => exact nofun
    | ok names => exact obeys_takeIndices repository names []

end Knowledge

section Runs

abbrev Taking (unicode : Unicode) :=
  Session (StateAccess unicode) StateAccess.Answer (ServiceResult (List IndexPayload)) Catalog

variable (unicode) in
def startSnapshot (repository : RepositoryOutcome) (indices : List String)
    (earlier : List (CatalogEvent unicode)) : Taking unicode :=
  .start (takeSnapshot unicode repository indices) (runEvents CatalogEvent.step earlier .empty)

def IsCut (catalog : Catalog) (payload : IndexPayload) : Prop :=
  indexMetadata catalog payload.index = some payload.metadata ∧
    documentsOf catalog payload.index = payload.documents

/- Between the metadata of an index and its documents, the others leave that index as it is. -/
def LeavesOpened (taking : Taking unicode) : SessionEvent (StateAccess unicode) → Prop
  | .own => True
  | .other access => match taking.rest with
    | .ask (.documents index) _ =>
      indexMetadata (access.serve taking.store).2 index = indexMetadata taking.store index ∧
        documentsOf (access.serve taking.store).2 index = documentsOf taking.store index
    | _ => True

/- Where the documents of an index are read next, its metadata is still what has been read. -/
def MetadataCurrent (taking : Taking unicode) (taken : Taken) : Prop :=
  ∀ index next, taking.rest = .ask (.documents index) next →
    ∃ metadata, taken.opened = some (index, metadata) ∧
      indexMetadata taking.store index = some metadata

variable {taking : Taking unicode} {taken : Taken}

theorem MetadataCurrent.other (current : MetadataCurrent taking taken) {access : StateAccess unicode}
    (leaves : LeavesOpened taking (.other access)) :
    MetadataCurrent (taking.step StateAccess.serve (.other access)) taken := by
  intro index next here
  obtain ⟨metadata, opened, same⟩ := current index next here
  have here : taking.rest = .ask (.documents index) next := here
  rw [LeavesOpened, here] at leaves
  exact ⟨metadata, opened, leaves.1.trans same⟩

theorem current_of_closed {program : StateProgram unicode (ServiceResult (List IndexPayload))}
    (obeys : Program.Obeys Taken.learn Taken.may Taken.ends taken program) (closed : taken.opened = none)
    (store : Catalog) (turn : Nat) : MetadataCurrent ⟨store, turn, program⟩ taken := by
  intro index next here
  rw [show program = .ask (.documents index) next from here] at obeys
  obtain ⟨metadata, opened⟩ := obeys.1
  rw [closed] at opened
  cases opened

/-- One access of the call: what it knows stays true, and what it packs up is a cut. -/
theorem own_access {q : StateAccess unicode}
    {next : q.Answer → StateProgram unicode (ServiceResult (List IndexPayload))}
    (here : taking.rest = .ask q next)
    (obeys : Program.Obeys Taken.learn Taken.may Taken.ends taken taking.rest)
    (current : MetadataCurrent taking taken) :
    let after := taken.learn q (q.serve taking.store).1
    Program.Obeys Taken.learn Taken.may Taken.ends after (taking.step StateAccess.serve .own).rest ∧
      MetadataCurrent (taking.step StateAccess.serve .own) after ∧
      ∀ payload ∈ after.payloads, payload ∈ taken.payloads ∨ IsCut taking.store payload := by
  rw [Session.step_ask here]
  rw [here] at obeys
  obtain ⟨may, later⟩ := obeys
  have later := later (q.serve taking.store).1
  refine ⟨later, ?_⟩
  cases q with
  | indexNames => exact ⟨current_of_closed later may _ _, fun _ old => .inl old⟩
  | indexExists index => exact ⟨current_of_closed later may _ _, fun _ old => .inl old⟩
  | indexMetadata index =>
    cases found : indexMetadata taking.store index with
    | none =>
      have same : taken.learn (.indexMetadata index : StateAccess unicode)
          ((StateAccess.indexMetadata index).serve taking.store).1 = taken := by
        simp only [StateAccess.serve, found, Taken.learn]
      rw [same] at later ⊢
      exact ⟨current_of_closed later may _ _, fun _ old => .inl old⟩
    | some metadata =>
      have opened : taken.learn (.indexMetadata index : StateAccess unicode)
          ((StateAccess.indexMetadata index).serve taking.store).1 =
            { taken with opened := some (index, metadata) } := by
        simp only [StateAccess.serve, found, Taken.learn]
      rw [opened] at later ⊢
      refine ⟨fun other next' asks => ?_, fun _ old => .inl old⟩
      rw [show next _ = .ask (.documents other) next' from asks] at later
      obtain ⟨metadata', same⟩ := later.1
      cases same
      exact ⟨metadata, rfl, found⟩
  | documents index =>
    obtain ⟨metadata, opened, same⟩ := current index next here
    have packed : taken.learn (.documents index : StateAccess unicode)
        ((StateAccess.documents index).serve taking.store).1 =
          ⟨taken.payloads ++ [⟨index, metadata, documentsOf taking.store index⟩], none⟩ := by
      simp only [StateAccess.serve, Taken.learn, opened]
    rw [packed] at later ⊢
    refine ⟨current_of_closed later rfl _ _, fun payload member => ?_⟩
    rcases List.mem_append.mp member with old | new
    · exact .inl old
    · cases List.mem_singleton.mp new
      exact .inr ⟨same, rfl⟩
  | change e => cases may

/-- What a snapshot comes back with is a cut of one of the states that the store has been in. -/
theorem taken_or_cut {events : List (SessionEvent (StateAccess unicode))}
    (obeys : Program.Obeys Taken.learn Taken.may Taken.ends taken taking.rest)
    (current : MetadataCurrent taking taken)
    (undisturbed : Admitted (Session.step StateAccess.serve) LeavesOpened taking events)
    {payloads : List IndexPayload}
    (done : (runEvents (Session.step StateAccess.serve) events taking).rest.result? = some (.ok payloads)) :
    ∀ payload ∈ payloads, payload ∈ taken.payloads ∨ ∃ before, before <+: events ∧
      IsCut (runEvents (Session.step StateAccess.serve) before taking).store payload := by
  induction events generalizing taking taken with
  | nil =>
    intro payload member
    change taking.rest.result? = some (.ok payloads) at done
    cases here : taking.rest with
    | done result =>
      rw [here] at done obeys
      cases done
      rw [obeys payloads rfl] at member
      exact .inl member
    | ask q next =>
      rw [here] at done
      cases done
  | cons e rest ih =>
    obtain ⟨leaves, later⟩ := undisturbed
    have shifted {payload : IndexPayload} (cut : ∃ before, before <+: rest ∧
        IsCut (runEvents (Session.step StateAccess.serve) before
          (taking.step StateAccess.serve e)).store payload) :
        ∃ before, before <+: e :: rest ∧
          IsCut (runEvents (Session.step StateAccess.serve) before taking).store payload := by
      obtain ⟨before, first, cut⟩ := cut
      exact ⟨e :: before, List.prefix_cons_inj e |>.mpr first, cut⟩
    intro payload member
    cases e with
    | other access =>
      have unread : Program.Obeys Taken.learn Taken.may Taken.ends taken
          (taking.step StateAccess.serve (.other access)).rest := obeys
      rcases ih unread (current.other leaves) later done payload member with old | cut
      · exact .inl old
      · exact .inr (shifted cut)
    | own =>
      cases here : taking.rest with
      | done result =>
        have unchanged : taking.step StateAccess.serve .own = taking := Session.step_done here
        rw [unchanged] at later
        change (runEvents (Session.step StateAccess.serve) rest
          (taking.step StateAccess.serve .own)).rest.result? = _ at done
        rw [unchanged] at done
        rcases ih obeys current later done payload member with old | cut
        · exact .inl old
        · rw [← unchanged] at cut
          exact .inr (shifted cut)
      | ask q next =>
        obtain ⟨obeys', current', packed⟩ := own_access here obeys current
        rcases ih obeys' current' later done payload member with new | cut
        · rcases packed payload new with old | cut
          · exact .inl old
          · exact .inr ⟨[], List.nil_prefix, cut⟩
        · exact .inr (shifted cut)

def StateAccess.Requested : StateAccess unicode → Prop
  | .change e => Snapshot.Requested e
  | _ => True

theorem covered_serve {catalog : Catalog} (covered : Covered catalog) {access : StateAccess unicode}
    (requested : access.Requested) : Covered (access.serve catalog).2 := by
  cases access with
  | change e => exact covered.step requested
  | _ => exact covered

theorem covered_run {events : List (SessionEvent (StateAccess unicode))}
    (obeys : Program.Obeys Taken.learn Taken.may Taken.ends taken taking.rest)
    (covered : Covered taking.store) (requested : ∀ access ∈ Session.others events, access.Requested) :
    Covered (runEvents (Session.step StateAccess.serve) events taking).store := by
  induction events generalizing taking taken with
  | nil => exact covered
  | cons e rest ih =>
    cases e with
    | other access =>
      have unread : Program.Obeys Taken.learn Taken.may Taken.ends taken
          (taking.step StateAccess.serve (.other access)).rest := obeys
      exact ih unread (covered_serve covered (requested access List.mem_cons_self))
        fun other member => requested other (List.mem_cons_of_mem _ member)
    | own =>
      cases here : taking.rest with
      | done result =>
        have unchanged : taking.step StateAccess.serve .own = taking := Session.step_done here
        change Covered (runEvents _ rest (taking.step StateAccess.serve .own)).store
        rw [unchanged]
        exact ih obeys covered requested
      | ask q next =>
        rw [here] at obeys
        have reads : q.Requested := by
          cases q with
          | change e => cases obeys.1
          | _ => trivial
        have later := obeys.2 (q.serve taking.store).1
        change Covered (runEvents _ rest (taking.step StateAccess.serve .own)).store
        rw [Session.step_ask here]
        exact ih later (covered_serve covered reads) requested

theorem others_initial {Q : Type} {before events : List (SessionEvent Q)} (first : before <+: events) {q : Q}
    (member : q ∈ Session.others before) : q ∈ Session.others events := by
  obtain ⟨after, rfl⟩ := first
  induction before with
  | nil => cases member
  | cons e rest ih =>
    cases e with
    | own => exact ih member
    | other access =>
      rcases List.mem_cons.mp member with rfl | later
      · exact List.mem_cons_self
      · exact List.mem_cons_of_mem _ (ih later)

/-- Where nobody changes an index between the reading of its metadata and of its documents, a snapshot
holds each index as it was at one moment of the call; so all fields of its documents are mapped. -/
theorem snapshot_is_cut (repository : RepositoryOutcome) (indices : List String)
    (earlier : List (CatalogEvent unicode)) {events : List (SessionEvent (StateAccess unicode))}
    (undisturbed : Admitted (Session.step StateAccess.serve) LeavesOpened
      (startSnapshot unicode repository indices earlier) events) :
    let taking := startSnapshot unicode repository indices earlier
    ∀ payloads, (runEvents (Session.step StateAccess.serve) events taking).rest.result? = some (.ok payloads) →
      ∀ payload ∈ payloads, ∃ before, before <+: events ∧
        IsCut (runEvents (Session.step StateAccess.serve) before taking).store payload ∧
        ((∀ e ∈ earlier, Requested e) → (∀ access ∈ Session.others events, access.Requested) →
          ∃ mapping, payload.metadata.mapping = mappingValue mapping ∧
            ∀ document ∈ payload.documents, Covers mapping document.2) := by
  intro taking payloads done payload member
  have obeys : Program.Obeys Taken.learn Taken.may Taken.ends ⟨[], none⟩ taking.rest :=
    obeys_takeSnapshot repository indices
  have current := current_of_closed obeys rfl taking.store taking.turn
  rcases taken_or_cut obeys current undisturbed done payload member with none | ⟨before, first, described, listed⟩
  · cases none
  · refine ⟨before, first, ⟨described, listed⟩, fun requested others => ?_⟩
    have covered := covered_run obeys (run_covered requested)
      fun access member => others access (others_initial first member)
    obtain ⟨data, found, same⟩ := Option.map_eq_some_iff.mp described
    refine ⟨data.mapping, (congrArg IndexMetadata.mapping same).symm, fun document member => ?_⟩
    apply covered payload.index data found
    rw [← listed, documentsOf, found] at member
    exact member

section Deleted

def willing : RepositoryOutcome := ⟨.ok (), fun _ => .ok (), fun _ => .ok ()⟩

def oneDocument : List (CatalogEvent .ascii) :=
  [.indexDocument "deces" "1" (.object [("NOM", .string "Martin")])]

def Closed (taking : Taking unicode) : SessionEvent (StateAccess unicode) → Bool
  | .own => true
  | .other _ => match taking.rest with
    | .ask (.documents _) _ => false
    | _ => true

theorem leaves_of_closed {taking : Taking unicode} {e : SessionEvent (StateAccess unicode)}
    (closed : Closed taking e = true) : LeavesOpened taking e := by
  cases e with
  | own => trivial
  | other access =>
    unfold Closed at closed
    unfold LeavesOpened
    dsimp only at closed ⊢
    split
    · rename_i here
      rw [here] at closed
      cases closed
    · trivial

def calmCall : List (SessionEvent (StateAccess .ascii)) :=
  [.own, .other (.change (.indexDocument "deces" "2" (.object [("SEXE", .number "1" false)]))), .own, .own,
    .other (.change (.deleteIndex "deces"))]

def packedUp (taking : Taking unicode) : Option (List IndexPayload) :=
  taking.rest.result?.bind Except.toOption

theorem result_of_packedUp {taking : Taking unicode} {payloads : List IndexPayload}
    (packed : packedUp taking = some payloads) : taking.rest.result? = some (.ok payloads) := by
  obtain ⟨result, ended, same⟩ := Option.bind_eq_some_iff.mp packed
  cases result with
  | error error => cases same
  | ok taken =>
    cases same
    exact ended

theorem snapshot_is_cut_calm :
    let taking := startSnapshot .ascii willing [] oneDocument
    ∃ payloads, packedUp (runEvents (Session.step StateAccess.serve) calmCall taking) = some payloads ∧
      payloads.length = 1 ∧ ∀ payload ∈ payloads, ∃ before, before <+: calmCall ∧
        IsCut (runEvents (Session.step StateAccess.serve) before taking).store payload := by
  intro taking
  have counted : (packedUp (runEvents (Session.step StateAccess.serve) calmCall taking)).map List.length =
      some 1 := by decide +kernel
  obtain ⟨payloads, packed, length⟩ := Option.map_eq_some_iff.mp counted
  have closed : Admitted (Session.step StateAccess.serve) (fun taking e => Closed taking e = true) taking
      calmCall := by decide +kernel
  have undisturbed : Admitted (Session.step StateAccess.serve) LeavesOpened taking calmCall :=
    closed.mono (fun _ => True) (fun _ _ _ _ => trivial) (fun _ _ _ closed => leaves_of_closed closed) trivial
  refine ⟨payloads, packed, length, fun payload member => ?_⟩
  obtain ⟨before, first, cut, -⟩ := snapshot_is_cut willing [] oneDocument undisturbed payloads
    (result_of_packedUp packed) payload member
  exact ⟨before, first, cut⟩

def deletingCall : List (SessionEvent (StateAccess .ascii)) :=
  [.own, .own, .other (.change (.deleteIndex "deces")), .own]

/-- The snapshot of an index that is deleted while it is taken comes back without its documents. -/
theorem not_snapshot_is_cut : ¬ ∀ (repository : RepositoryOutcome) (indices : List String)
    (earlier : List (CatalogEvent .ascii)) (events : List (SessionEvent (StateAccess .ascii))),
    let taking := startSnapshot .ascii repository indices earlier
    ∀ payloads, packedUp (runEvents (Session.step StateAccess.serve) events taking) = some payloads →
      ∀ payload ∈ payloads, ∃ before, before <+: events ∧
        IsCut (runEvents (Session.step StateAccess.serve) before taking).store payload := by
  intro every
  have packed : (packedUp (runEvents (Session.step StateAccess.serve) deletingCall
      (startSnapshot .ascii willing [] oneDocument))).map
        (List.map fun payload => (payload.index, payload.documents.length)) = some [("deces", 0)] := by
    decide +kernel
  obtain ⟨payloads, packed, shape⟩ := Option.map_eq_some_iff.mp packed
  obtain ⟨payload, rest, rfl, same, -⟩ := List.map_eq_cons_iff.mp shape
  obtain ⟨before, first, described, listed⟩ :=
    every willing [] oneDocument deletingCall _ packed payload List.mem_cons_self
  have never : ∀ before ∈ deletingCall.inits,
      let store := (runEvents (Session.step StateAccess.serve) before
        (startSnapshot .ascii willing [] oneDocument)).store
      (indexMetadata store "deces").isSome = true → (documentsOf store "deces").length ≠ 0 := by
    decide +kernel
  obtain ⟨name, empty⟩ := Prod.mk.inj same
  rw [name] at described listed
  apply never before ((List.mem_inits _ _).mpr first)
  · rw [described]
    rfl
  · rw [listed]
    exact empty

end Deleted

end Runs

section Undisturbed

/- How a call sees the indices while nobody changes them; `compress` is what becomes of a tarball. -/
def stateView (encodings : Encodings) (compress : Tarball → List UInt8) (catalog : Catalog) : StateView where
  indexNames := catalog.indices.keys
  indexExists := catalog.indexExists
  index name := (indexMetadata catalog name).map fun metadata => {
    mapping := metadata.mapping
    settings := metadata.settings
    aliases := metadata.aliases.entries
    docCount := (documentsOf catalog name).length
    tarball := (buildIndexTarballForEsSnapshot encodings name metadata
      (documentsOf catalog name)).map compress }

variable {D α β : Type} (serve : (failed : Bool) → (q : RepositoryRequest) → D → RepositoryAnswer q × D)

/- A call that is served to its end, and what it leaves of the repository. -/
def ServiceProgram.completed (program : ServiceProgram α) (repo : D) : ServiceResult α × D :=
  Program.complete serve [] program.run repo

def andThen (first : ServiceResult α × D) (rest : α → D → ServiceResult β × D) : ServiceResult β × D :=
  match first.1 with
  | .ok result => rest result first.2
  | .error error => (.error error, first.2)

@[simp] theorem andThen_ok (result : α) (repo : D) (rest : α → D → ServiceResult β × D) :
    andThen (.ok result, repo) rest = rest result repo := rfl

@[simp] theorem andThen_error (error : SnapshotServiceError) (repo : D) (rest : α → D → ServiceResult β × D) :
    andThen (.error error, repo) rest = (.error error, repo) := rfl

theorem andThen_cases (first : ServiceResult α × D) (rest : α → D → ServiceResult β × D) :
    (∃ error, (andThen first rest).1 = .error error) ∨ ∃ result repo, andThen first rest = rest result repo := by
  obtain ⟨error | result, repo⟩ := first
  · exact .inl ⟨error, rfl⟩
  · exact .inr ⟨result, repo, rfl⟩

variable (state : StateView) (repo : D) (repoName snapName : String) (indices : List String)
  (includeGlobalState : Bool) (start finish : Int)

/- What comes of the requests of `create_snapshot` to a repository. -/
def repositoryOutcome : RepositoryOutcome where
  loaded := (ServiceProgram.completed serve (do
    let (manifest, _) ← loadOrInitManifest
    if manifest.snapshots.any fun s => s.name = snapName then
      throw (.snapshotAlreadyExists repoName snapName)
    else return ()) repo).1
  shipped taken := (ServiceProgram.completed serve (do
    let (manifest, _) ← loadOrInitManifest
    let snapUuid ← newUuid
    let manifest ← assignUuids manifest ((resolveIndices state indices).toOption.getD [])
    exportIndices state manifest snapUuid (taken.map IndexPayload.index)) repo).1
  written _ := (ServiceProgram.completed serve (createSnapshot state repoName snapName indices includeGlobalState
    start finish) repo).1.map fun _ => ()

variable {serve}

theorem completed_bind (program : ServiceProgram α) (next : α → ServiceProgram β) (repo : D) :
    ServiceProgram.completed serve (program >>= next) repo =
      andThen (program.completed serve repo) fun result repo => (next result).completed serve repo := by
  change Program.complete serve [] (program.run >>= _) repo = _
  rw [Program.complete_bind, andThen, ServiceProgram.completed]
  cases (Program.complete serve [] program.run repo).1 with
  | ok result => rfl
  | error error => rfl

theorem andThen_assoc {γ : Type} (first : ServiceResult α × D) (second : α → D → ServiceResult β × D)
    (third : β → D → ServiceResult γ × D) :
    andThen (andThen first second) third = andThen first fun result repo => andThen (second result repo) third := by
  unfold andThen
  cases first.1 with
  | ok result => rfl
  | error error => rfl

theorem assignUuids_ok (manifest : RootManifest) (names : List String) (repo : D) :
    ∃ assigned after, (assignUuids manifest names).completed serve repo = (.ok assigned, after) := by
  induction names generalizing manifest repo with
  | nil => exact ⟨_, _, rfl⟩
  | cons name rest ih =>
    rw [assignUuids]
    split
    · exact ih _ _
    · rw [completed_bind]
      exact ih _ _

theorem exportIndices_append (manifest : RootManifest) (snapUuid : Uuid) (first second : List String) (repo : D) :
    (exportIndices state manifest snapUuid (first ++ second)).completed serve repo =
      andThen ((exportIndices state manifest snapUuid first).completed serve repo) fun _ repo =>
        (exportIndices state manifest snapUuid second).completed serve repo := by
  induction first generalizing repo with
  | nil => rfl
  | cons index rest ih =>
    rw [List.cons_append, exportIndices, exportIndices]
    cases state.index index with
    | none => rfl
    | some view =>
      simp only [completed_bind, andThen_assoc]
      congr 1
      funext _ repo
      cases view.tarball with
      | error message => rfl
      | ok payload =>
        simp only [completed_bind, andThen_assoc]
        congr 1
        funext _ repo
        exact ih repo

variable {encodings : Encodings} {compress : Tarball → List UInt8} {catalog : Catalog}

abbrev taking (program : StateProgram unicode α) (catalog : Catalog) : α × Catalog :=
  Program.complete (fun _ => StateAccess.serve) [] program catalog

theorem taking_bind (program : StateProgram unicode α) (next : α → StateProgram unicode β) :
    taking (program >>= next) catalog = taking (next (taking program catalog).1) (taking program catalog).2 :=
  Program.complete_bind _ _ _

theorem taking_selectIndices (indices : List String) :
    taking (selectIndices unicode indices) catalog =
      (resolveIndices (stateView encodings compress catalog) indices, catalog) := by
  have missing (names : List String) : taking (missingName unicode names) catalog =
      (names.find? fun name => !catalog.indexExists name, catalog) := by
    induction names with
    | nil => rfl
    | cons name rest ih =>
      rw [missingName, List.find?_cons]
      change taking (if catalog.indexExists name then _ else _) catalog = _
      cases catalog.indexExists name with
      | true => exact ih
      | false => rfl
  rw [selectIndices, resolveIndices]
  split
  · rfl
  · rw [taking_bind, missing]
    dsimp only [stateView]
    cases indices.find? fun name => !catalog.indexExists name <;> rfl

theorem taking_takeIndices (repository : RepositoryOutcome) (manifest : RootManifest) (snapUuid : Uuid) (repo : D)
    (shipped : ∀ payloads, repository.shipped payloads = ((exportIndices (stateView encodings compress catalog)
      manifest snapUuid (payloads.map IndexPayload.index)).completed serve repo).1)
    (rest : List String) (payloads : List IndexPayload) (cut : ∀ payload ∈ payloads, IsCut catalog payload)
    (before : repository.shipped payloads = .ok ()) :
    (∃ error, ((exportIndices (stateView encodings compress catalog) manifest snapUuid
        (payloads.map IndexPayload.index ++ rest)).completed serve repo).1 = .error error ∧
      (taking (takeIndices unicode repository payloads rest) catalog).1 = .error error) ∨
    ∃ taken, taken.map IndexPayload.index = payloads.map IndexPayload.index ++ rest ∧
      repository.shipped taken = .ok () ∧ (∀ payload ∈ taken, IsCut catalog payload) ∧
      (taking (takeIndices unicode repository payloads rest) catalog).1 =
        (repository.written taken).map fun _ => taken := by
  induction rest generalizing payloads with
  | nil => exact .inr ⟨payloads, (List.append_nil _).symm, before, cut, rfl⟩
  | cons index rest ih =>
    have asked : taking (Program.request (StateAccess.indexMetadata index) : StateProgram unicode _) catalog =
        (indexMetadata catalog index, catalog) := rfl
    cases found : indexMetadata catalog index with
    | none =>
      left
      refine ⟨.indexMissing index, ?_, ?_⟩
      · have gone : (stateView encodings compress catalog).index index = none := by
          simp only [stateView, found, Option.map_none]
        rw [exportIndices_append, andThen, ← shipped, before]
        dsimp only
        rw [exportIndices, gone]
        rfl
      · rw [takeIndices, taking_bind, asked, found]
        rfl
    | some metadata =>
      have same : taking (takeIndices unicode repository payloads (index :: rest)) catalog =
          taking (match repository.shipped (payloads ++ [⟨index, metadata, documentsOf catalog index⟩]) with
            | .error error => return .error error
            | .ok () => takeIndices unicode repository
                (payloads ++ [⟨index, metadata, documentsOf catalog index⟩]) rest) catalog := by
        rw [takeIndices, taking_bind, asked, found]
        rfl
      have names : (payloads ++ [(⟨index, metadata, documentsOf catalog index⟩ : IndexPayload)]).map
          IndexPayload.index ++ rest =
          payloads.map IndexPayload.index ++ index :: rest := by
        rw [List.map_append, List.append_assoc]
        rfl
      rw [same, ← names]
      cases sent : repository.shipped (payloads ++ [⟨index, metadata, documentsOf catalog index⟩]) with
      | error error =>
        left
        refine ⟨error, ?_, rfl⟩
        rw [exportIndices_append, andThen, ← shipped, sent]
      | ok _ =>
        refine ih _ (fun payload member => ?_) sent
        rcases List.mem_append.mp member with old | new
        · exact cut payload old
        · obtain rfl := List.mem_singleton.mp new
          exact ⟨found, rfl⟩

/- What `create_snapshot` comes to once its indices are resolved hangs on what comes of their objects. -/
theorem completed_createSnapshot {manifest : RootManifest} {etag : Option Nat} {names : List String} {repo' : D}
    (loaded : loadOrInitManifest.completed serve repo = (.ok (manifest, etag), repo'))
    (unused : ¬ manifest.snapshots.any fun s => s.name = snapName)
    (resolved : resolveIndices state indices = .ok names) :
    let created := ((createSnapshot state repoName snapName indices includeGlobalState start finish).completed
      serve repo).1
    ∃ assigned snapUuid repo'',
      (∀ payloads, (repositoryOutcome serve state repo repoName snapName indices includeGlobalState start
        finish).shipped payloads = ((exportIndices state assigned snapUuid
          (payloads.map IndexPayload.index)).completed serve repo'').1) ∧
      (∀ error, ((exportIndices state assigned snapUuid names).completed serve repo'').1 = .error error →
        created = .error error) ∧
      ((∃ error, created = .error error) ∨ ∃ entry, created = .ok entry ∧ entry.indices = names) := by
  let uuid := (serve false .newUuid repo').1
  have drawn : newUuid.completed serve repo' = (.ok uuid, (serve false .newUuid repo').2) := rfl
  obtain ⟨assigned, repo'', assigns⟩ := @assignUuids_ok _ serve manifest names (serve false .newUuid repo').2
  refine ⟨assigned, uuid, repo'', fun payloads => ?_, ?_⟩
  · simp only [repositoryOutcome, completed_bind, loaded, andThen_ok, drawn, resolved, Except.toOption,
      Option.getD_some, assigns]
  · rw [createSnapshot, completed_bind, loaded, andThen_ok]
    dsimp only
    rw [if_neg unused, resolved]
    simp only [completed_bind, drawn, assigns, andThen_ok]
    rcases (exportIndices state assigned uuid names).completed serve repo'' with ⟨error | _, repo⟩
    · exact ⟨fun _ same => congrArg _ (Except.error.inj same), .inl ⟨error, rfl⟩⟩
    rw [andThen_ok]
    refine ⟨fun _ same => (by cases same), ?_⟩
    rcases andThen_cases _ _ with failed | ⟨_, repo, here⟩
    · exact .inl failed
    rw [here]
    rcases andThen_cases _ _ with failed | ⟨_, repo, here⟩
    · exact .inl failed
    rw [here]
    rcases andThen_cases _ _ with failed | ⟨_, repo, here⟩
    · exact .inl failed
    rw [here]
    exact .inr ⟨_, rfl, rfl⟩

/-- While nobody changes the indices, the snapshot that is packed up is the one that the calls on the repository
create: the same refusal, or the same indices, each as it is. -/
theorem takeSnapshot_createSnapshot (indices : List String) :
    let view := stateView encodings compress catalog
    let created := ((createSnapshot view repoName snapName indices includeGlobalState start finish).completed
      serve repo).1
    let taken := (taking (takeSnapshot unicode (repositoryOutcome serve view repo repoName snapName indices
      includeGlobalState start finish) indices) catalog).1
    (∃ error, created = .error error ∧ taken = .error error) ∨
    ∃ entry payloads, created = .ok entry ∧ taken = .ok payloads ∧
      payloads.map IndexPayload.index = entry.indices ∧ ∀ payload ∈ payloads, IsCut catalog payload := by
  dsimp only
  set view := stateView encodings compress catalog with view_eq
  set repository := repositoryOutcome serve view repo repoName snapName indices includeGlobalState start finish
    with repository_eq
  rcases loaded : loadOrInitManifest.completed serve repo with ⟨error | ⟨manifest, etag⟩, repo'⟩
  · left
    have refused : repository.loaded = .error error := by
      simp only [repository_eq, repositoryOutcome, completed_bind, loaded, andThen_error]
    rw [createSnapshot, completed_bind, loaded, takeSnapshot, refused]
    exact ⟨error, rfl, rfl⟩
  by_cases used : manifest.snapshots.any fun s => s.name = snapName
  · left
    have refused : repository.loaded = .error (.snapshotAlreadyExists repoName snapName) := by
      simp only [repository_eq, repositoryOutcome, completed_bind, loaded, andThen_ok, if_pos used]
      rfl
    rw [createSnapshot, completed_bind, loaded, andThen_ok, takeSnapshot, refused]
    dsimp only
    rw [if_pos used]
    exact ⟨_, rfl, rfl⟩
  have accepted : repository.loaded = .ok () := by
    simp only [repository_eq, repositoryOutcome, completed_bind, loaded, andThen_ok, if_neg used]
    rfl
  rw [takeSnapshot, accepted]
  dsimp only
  rw [taking_bind, @taking_selectIndices _ encodings compress, ← view_eq]
  cases resolved : resolveIndices view indices with
  | error error =>
    rw [createSnapshot, completed_bind, loaded, andThen_ok]
    dsimp only
    rw [if_neg used, resolved]
    exact .inl ⟨error, rfl, rfl⟩
  | ok names =>
    obtain ⟨assigned, uuid, repo'', shipped, stops, outcome⟩ := completed_createSnapshot view repo repoName snapName
      indices includeGlobalState start finish loaded used resolved
    dsimp only
    rcases @taking_takeIndices unicode _ serve encodings compress catalog repository assigned uuid repo'' shipped
      names [] nofun (shipped []) with ⟨error, failed, stopped⟩ | ⟨payloads, packed, sent, cuts, ended⟩
    · exact .inl ⟨error, stops error failed, stopped⟩
    · rcases outcome with ⟨error, refused⟩ | ⟨entry, created, listed⟩
      · left
        refine ⟨error, refused, ended.trans ?_⟩
        rw [repository_eq, repositoryOutcome, refused]
        rfl
      · right
        refine ⟨entry, payloads, created, ended.trans ?_, packed.trans listed.symm, cuts⟩
        rw [repository_eq, repositoryOutcome, created]
        rfl

end Undisturbed

end Surch.Snapshot
