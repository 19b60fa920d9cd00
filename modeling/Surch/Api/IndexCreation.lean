import Surch.Api.Requests
import Surch.Lib.Pool

/-! Requests that create and delete indices and write documents, side by side. A creation looks for its
index and then makes it, and is acknowledged either way; it has taken effect where no index of its name
has come to be meanwhile. -/
namespace Surch.Api
open Surch.Lib Surch.Index

variable {unicode : Unicode}

section Service

variable (unicode) in
inductive IndexRequest where
  | create (index : String) (request : CreateIndexRequest unicode)
  | delete (index : String)
  | put (target id : String) (source : Value)
  | bulk (operations : List DocumentWriteOperation)

def IndexRequest.program : IndexRequest unicode → StoreProgram unicode IndexResponse
  | .create index request => createIndexHandler index request
  | .delete index => deleteIndexHandler unicode index
  | .put target id source => putDocumentHandler unicode target id source
  | .bulk operations => bulkHandler unicode operations

variable (unicode) in
/- A request remembers what it has asked last. -/
def indexService : Service (StoreAccess unicode) StoreAccess.Answer IndexResponse
    (Option (StoreAccess unicode)) Catalog (IndexRequest unicode) where
  program := IndexRequest.program
  serve _ access catalog := access.serve catalog
  fresh := none
  learn _ access _ := some access

abbrev Requests (unicode : Unicode) := Pool (StoreAccess unicode) StoreAccess.Answer IndexResponse
  (Option (StoreAccess unicode)) Catalog

def StoreAccess.Changes : StoreAccess unicode → Prop
  | .change _ => True
  | _ => False

/- A request changes the store once, with its last access. -/
def mayAsk (last : Option (StoreAccess unicode)) : StoreAccess unicode → Prop
  | .change (.createIndex _ _ _ _) => ¬ ∃ access ∈ last, access.Changes
  | .change (.deleteIndex _) => ¬ ∃ access ∈ last, access.Changes
  | .change (.indexDocument _ _ _) => ¬ ∃ access ∈ last, access.Changes
  | .change (.applyDocumentWrites _) => ¬ ∃ access ∈ last, access.Changes
  | .change _ => False
  | _ => ¬ ∃ access ∈ last, access.Changes

def mayEnd (last : Option (StoreAccess unicode)) (response : IndexResponse) : Prop :=
  match last with
  | some (.change (.createIndex index _ _ _)) => response = .created index
  | some (.change (.deleteIndex index)) => response = .deleted index
  | some (.change (.indexDocument index id _)) => response = .stored index id
  | some (.change (.applyDocumentWrites _)) => response = .written
  | _ => ∃ error, response = .refused error

theorem obeys_resolveOperations (operations : List DocumentWriteOperation)
    {last : Option (StoreAccess unicode)} (unchanged : ¬ ∃ access ∈ last, access.Changes) :
    Program.Obeys (indexService unicode).learn mayAsk (fun last _ => ¬ ∃ access ∈ last, access.Changes) last
      (resolveOperations unicode operations) := by
  induction operations generalizing last with
  | nil => exact unchanged
  | cons operation rest ih =>
    refine ⟨unchanged, fun resolved => ?_⟩
    change Program.Obeys _ _ _ _ (resolveOperations unicode rest >>= _)
    apply Program.Obeys.bind
    have still : ¬ ∃ access ∈ (indexService unicode).learn last
        (.resolveWriteTarget operation.target) resolved, access.Changes := by
      rintro ⟨access, member, changes⟩
      cases member
      cases changes
    apply (ih still).mono
    intro last writes unchanged
    cases resolved with
    | error reason => exact unchanged
    | ok index => exact unchanged

theorem program_obeys (request : IndexRequest unicode) :
    Program.Obeys (indexService unicode).learn mayAsk mayEnd none request.program := by
  have none_yet : ¬ ∃ access ∈ (none : Option (StoreAccess unicode)), access.Changes := nofun
  have read {access : StoreAccess unicode} (reads : ¬ access.Changes) :
      ¬ ∃ other ∈ some access, other.Changes := by
    rintro ⟨other, member, changes⟩
    cases member
    exact reads changes
  cases request with
  | create index request =>
    refine ⟨none_yet, fun there => ?_⟩
    cases there with
    | true => exact ⟨_, rfl⟩
    | false => exact ⟨read nofun, fun _ => rfl⟩
  | delete index =>
    refine ⟨none_yet, fun there => ?_⟩
    cases there with
    | true => exact ⟨read nofun, fun _ => rfl⟩
    | false => exact ⟨_, rfl⟩
  | put target id source =>
    refine ⟨none_yet, fun resolved => ?_⟩
    cases resolved with
    | error reason => exact ⟨_, rfl⟩
    | ok index => exact ⟨read nofun, fun _ => rfl⟩
  | bulk operations =>
    apply Program.Obeys.bind
    apply (obeys_resolveOperations operations none_yet).mono
    exact fun last writes unchanged => ⟨unchanged, fun _ => rfl⟩

end Service

section Acknowledged

/- Of two answers that an index is created, one that it is deleted comes between. -/
def CreatedOnce (index : String) (returned : List IndexResponse) : Prop :=
  ∀ first middle last, returned = first ++ .created index :: middle ++ .created index :: last →
    .deleted index ∈ middle

def StillThere (catalog : Catalog) (returned : List IndexResponse) : Prop :=
  ∀ index first rest, returned = first ++ .created index :: rest → .deleted index ∉ rest →
    catalog.indexExists index = true

theorem append_one_split {α : Type} {items first rest : List α} {last item : α}
    (split : items ++ [last] = first ++ item :: rest) :
    rest = [] ∧ first = items ∧ item = last ∨ ∃ before, rest = before ++ [last] ∧ items = first ++ item :: before := by
  rcases List.eq_nil_or_concat rest with rfl | ⟨before, final, rfl⟩
  · obtain ⟨same, ended⟩ := List.append_inj' split rfl
    exact .inl ⟨rfl, same.symm, (List.cons.inj ended).1.symm⟩
  · have regrouped : items ++ [last] = (first ++ item :: before) ++ [final] := by simpa using split
    obtain ⟨same, ended⟩ := List.append_inj' regrouped rfl
    cases ended
    exact .inr ⟨before, by simp, same⟩

variable {catalog after : Catalog} {returned : List IndexResponse} {response : IndexResponse}

theorem CreatedOnce.append {index : String} (once : CreatedOnce index returned)
    (fresh : response = .created index → ∀ first middle, returned = first ++ .created index :: middle →
      .deleted index ∈ middle) : CreatedOnce index (returned ++ [response]) := by
  intro first middle last split
  rcases append_one_split split with ⟨-, same, rfl⟩ | ⟨before, -, same⟩
  · exact fresh rfl first middle same.symm
  · exact once first middle before same

theorem StillThere.append (still : StillThere catalog returned)
    (made : ∀ index, response = .created index → after.indexExists index = true)
    (kept : ∀ index, response ≠ .deleted index → catalog.indexExists index = true →
      after.indexExists index = true) : StillThere after (returned ++ [response]) := by
  intro index first rest split undeleted
  rcases append_one_split split with ⟨-, -, rfl⟩ | ⟨before, rfl, same⟩
  · exact made index rfl
  · rw [List.mem_append, not_or, List.mem_singleton] at undeleted
    exact kept index (Ne.symm undeleted.2) (still index first before same undeleted.1)

/-- An answer that is neither a creation nor a deletion, after a change that removes no index. -/
theorem StillThere.other (still : StillThere catalog returned)
    (neither : ∀ index, response ≠ .created index)
    (kept : ∀ index, catalog.indexExists index = true → after.indexExists index = true) :
    StillThere after (returned ++ [response]) := by
  apply still.append
  · exact fun index same => absurd same (neither index)
  · exact fun index _ there => kept index there

end Acknowledged

section Runs

variable (unicode) in
structure Orderly (catalog : Catalog) (returned : List IndexResponse) : Prop where
  sound : catalog.Sound unicode
  once : ∀ index, CreatedOnce index returned
  still : StillThere catalog returned

def Unraced (catalog : Catalog) : StoreAccess unicode → Prop
  | .change (.createIndex index _ _ _) => catalog.indexExists index = false
  | _ => True

instance (catalog : Catalog) (access : StoreAccess unicode) : Decidable (Unraced catalog access) := by
  unfold Unraced
  rcases access with _ | _ | _ | _ | _ | _ | _ | ⟨⟨⟩⟩ <;> infer_instance

/-- An answer that creates nothing and deletes nothing, after a change that removes no index. -/
theorem Orderly.other {catalog after : Catalog} {returned : List IndexResponse}
    (orderly : Orderly unicode catalog returned) (sound : after.Sound unicode)
    {response : IndexResponse} (neither : ∀ index, response ≠ .created index)
    (kept : ∀ index, catalog.indexExists index = true → after.indexExists index = true) :
    Orderly unicode after (returned ++ [response]) := by
  constructor
  · exact sound
  · intro index
    apply (orderly.once index).append
    exact fun same => absurd same (neither index)
  · exact orderly.still.other neither kept

theorem Orderly.changed {catalog : Catalog} {returned : List IndexResponse}
    (orderly : Orderly unicode catalog returned) {last : Option (StoreAccess unicode)}
    {e : CatalogEvent unicode} (may : mayAsk last (.change e)) (unraced : Unraced catalog (.change e))
    {response : IndexResponse} (ends : mayEnd (some (.change e)) response) :
    Orderly unicode (e.step catalog) (returned ++ [response]) := by
  have sound := orderly.sound.step e
  cases e with
  | createIndex index mapping settings aliases =>
    cases ends
    have wrote : catalog.Wrote ((CatalogEvent.createIndex index mapping settings aliases).step catalog)
      [index] := Catalog.wrote_createIndexIfMissing index _ _ _
    constructor
    · exact sound
    · intro other
      apply (orderly.once other).append
      intro same first middle split
      cases same
      by_contra undeleted
      have there := orderly.still index first middle split undeleted
      rw [show catalog.indexExists index = false from unraced] at there
      cases there
    · apply orderly.still.append
      · intro other same
        cases same
        exact wrote.made List.mem_cons_self
      · exact fun other _ there => wrote.kept there
  | deleteIndex index =>
    cases ends
    constructor
    · exact sound
    · exact fun other => (orderly.once other).append nofun
    · apply orderly.still.append
      · exact nofun
      · intro other different there
        have apart : other ≠ index := fun same => different (congrArg _ same.symm)
        simp [CatalogEvent.step, there, apart]
  | indexDocument index id source =>
    cases ends
    exact orderly.other sound nofun fun _ there => (Catalog.wrote_indexDocument index id source).kept there
  | applyDocumentWrites operations =>
    cases ends
    exact orderly.other sound nofun fun _ there => (Catalog.wrote_applyDocumentWrites operations).kept there
  | createDocument index id source => cases may
  | deleteDocument index id => cases may
  | setMapping index mapping => cases may
  | mergeFieldMappings index mapping => cases may
  | addAlias index aliasName definition => cases may
  | removeAlias index aliasName => cases may
  | putIndexTemplate name indexPatterns composedOf priority template => cases may
  | deleteIndexTemplate name => cases may
  | putComponentTemplate name template => cases may
  | deleteComponentTemplate name => cases may

theorem index_rules : (indexService unicode).Rules mayAsk mayEnd
    (fun catalog returned _ => Orderly unicode catalog returned) (fun _ _ => True) (fun _ _ => True)
    (fun catalog _ _ access _ => Unraced catalog access) where
  obeys := program_obeys
  fresh_knows _ := trivial
  fresh_apart _ := trivial
  fresh_shared _ _ _ orderly := orderly
  apart_symm _ _ _ := trivial
  own _ _ _ _ _ _ _ _ _ _ := trivial
  others _ _ _ _ _ _ _ _ _ _ _ _ _ := ⟨trivial, trivial⟩
  goes_on catalog returned _ _ last access _ other _ orderly _ _ _ asks := by
    have reads : ¬ access.Changes := by
      intro changes
      have last_only : ¬ ∃ access' ∈ some access, access'.Changes := by
        unfold mayAsk at asks
        split at asks <;> first | exact asks | cases asks
      exact last_only ⟨access, rfl, changes⟩
    cases access with
    | change e => exact absurd trivial reads
    | _ => exact orderly
  returns catalog returned _ _ last access _ response _ orderly _ may unraced ends := by
    cases access with
    | change e => exact orderly.changed may unraced ends
    | _ =>
      obtain ⟨error, rfl⟩ := ends
      exact orderly.other orderly.sound nofun fun _ there => there

/- The index is exactly what the request asks for, over what the templates give. -/
def TakesEffect (catalog : Catalog) : StoreAccess unicode → Prop
  | .change (.createIndex index mapping settings aliases) =>
    let created := (templateDefaultsForNewIndex (matchingIndexTemplates index catalog.indexTemplates)).merge
      ((mapping.map AcceptedMapping.mapping).getD .default) settings aliases
    let after := catalog.createIndex index (mapping.map AcceptedMapping.mapping) settings aliases
    after.indices.get? index = some (.new created.mapping created.settings) ∧
      after.aliasDefinitionsForIndex index = created.aliases
  | _ => True

theorem takes_effect {catalog : Catalog} (sound : catalog.Sound unicode) {access : StoreAccess unicode}
    (unraced : Unraced catalog access) : TakesEffect catalog access := by
  unfold TakesEffect
  split
  · exact sound.get?_createIndexIfMissing unraced _ _ _
  · trivial

def begun (earlier : List (CatalogEvent unicode)) : Requests unicode :=
  ⟨runEvents CatalogEvent.step earlier .empty, [], []⟩

/-- Where no index comes to be between the check of a creation and the creation itself, every creation
that is acknowledged has taken effect, and of two of one index a deletion comes between. -/
theorem creation_takes_effect (earlier : List (CatalogEvent unicode))
    {events : List (PoolEvent (IndexRequest unicode))}
    (unraced : Admitted (Pool.step (indexService unicode))
      (Pool.Allows fun catalog _ _ access _ => Unraced catalog access) (begun earlier) events) :
    (∀ index, CreatedOnce index
      (runEvents (Pool.step (indexService unicode)) events (begun earlier)).returned) ∧
    Admitted (Pool.step (indexService unicode))
      (Pool.Allows fun catalog _ _ access _ => TakesEffect catalog access) (begun earlier) events := by
  have sound : (begun earlier).Sound (indexService unicode) mayAsk mayEnd
      (fun catalog returned _ => Orderly unicode catalog returned) (fun _ _ => True) (fun _ _ => True) := by
    constructor
    · exact nofun
    · exact nofun
    · exact fun _ _ _ _ _ here => by cases here
    · constructor
      · exact Catalog.run_sound earlier
      · exact fun _ first _ _ split => by cases first <;> cases split
      · exact fun _ first _ split => by cases first <;> cases split
  constructor
  · exact (sound.run index_rules unraced).shared.once
  · apply unraced.mono _ (fun _ _ sound allowed => sound.step index_rules allowed) _ sound
    intro requests e sound allowed
    exact allowed.mono fun _ _ _ _ unraced => takes_effect sound.shared.sound unraced

section Race

def plainRequest : CreateIndexRequest .ascii where
  mapping := ⟨.default, .object [], rfl⟩
  settings := .object []
  aliases := .singleton "morts" (.object [])

def calmEvents : List (PoolEvent (IndexRequest .ascii)) :=
  [.start (.create "deces" plainRequest), .start (.delete "deces"), .start (.put "morts" "1" (.object [])),
    .start (.create "deces" plainRequest), .advance 0 false, .advance 0 false, .advance 2 false,
    .advance 1 false, .advance 2 false, .advance 1 false, .advance 3 false, .advance 3 false]

theorem creation_takes_effect_calm :
    CreatedOnce "deces" (runEvents (Pool.step (indexService .ascii)) calmEvents (begun [])).returned :=
  (creation_takes_effect [] (by decide +kernel)).1 "deces"

def racingEvents : List (PoolEvent (IndexRequest .ascii)) :=
  [.start (.create "deces" plainRequest), .start (.create "deces" plainRequest), .advance 0 false,
    .advance 1 false, .advance 0 false, .advance 1 false]

/-- Two requests that race are both acknowledged. -/
theorem not_creation_takes_effect : ¬ ∀ (earlier : List (CatalogEvent .ascii))
    (events : List (PoolEvent (IndexRequest .ascii))),
    (∀ index, CreatedOnce index
      (runEvents (Pool.step (indexService .ascii)) events (begun earlier)).returned) ∧
    Admitted (Pool.step (indexService .ascii))
      (Pool.Allows fun catalog _ _ access _ => TakesEffect catalog access) (begun earlier) events := by
  intro every
  have both : (runEvents (Pool.step (indexService .ascii)) racingEvents (begun [])).returned =
      [.created "deces", .created "deces"] := by decide +kernel
  have once := (every [] racingEvents).1 "deces" [] [] [] both
  cases once

end Race

end Runs

end Surch.Api
