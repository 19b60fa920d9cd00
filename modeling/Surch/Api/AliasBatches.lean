import Surch.Api.Requests
import Surch.Lib.Session

/-! A batch of alias actions among the accesses of other requests. The batch takes the lock for each of
its steps, so that the others can see it half done; it happens at once where they keep away from the
aliases while it is under way. -/
namespace Surch.Api
open Surch.Lib Surch.Index

namespace Catalog

variable (catalog : Catalog)

def mapAliases (f : SortedMap String (SortedMap String Value) → SortedMap String (SortedMap String Value)) :
    Catalog :=
  { catalog with aliases := f catalog.aliases }

end Catalog

section Actions

/- An action as it should be, on a store that has the index. -/
def AliasAction.apply (catalog : Catalog) : AliasAction → Catalog
  | .add index aliasName definition => catalog.insertAlias index aliasName definition
  | .remove index aliasName => catalog.removeAlias index aliasName

def applyAll (actions : List AliasAction) (catalog : Catalog) : Catalog :=
  actions.foldl AliasAction.apply catalog

def Applicable (actions : List AliasAction) (catalog : Catalog) : Prop :=
  ∀ action ∈ actions, match action with
    | .add index _ _ => catalog.indexExists index = true
    | .remove _ _ => True

instance (actions : List AliasAction) (catalog : Catalog) : Decidable (Applicable actions catalog) := by
  unfold Applicable
  have (action : AliasAction) : Decidable (match action with
      | .add index _ _ => catalog.indexExists index = true
      | .remove _ _ => True) := by
    cases action <;> infer_instance
  infer_instance

def checks : List AliasAction → Nat
  | [] => 0
  | .add _ _ _ :: rest => checks rest + 1
  | .remove _ _ :: rest => checks rest

variable {catalog : Catalog}

theorem AliasAction.apply_mapAliases (action : AliasAction) :
    ∃ f, ∀ catalog, AliasAction.apply catalog action = catalog.mapAliases f := by
  cases action with
  | add index aliasName definition =>
    exact ⟨fun aliases => aliases.upsert aliasName fun indices =>
      (indices.getD .empty).upsert index fun _ => definition, fun _ => rfl⟩
  | remove index aliasName =>
    refine ⟨fun aliases => (aliases.get? aliasName).elim aliases fun indices =>
      if (indices.erase index).entries.isEmpty then aliases.erase aliasName
      else aliases.upsert aliasName fun _ => indices.erase index, fun catalog => ?_⟩
    unfold AliasAction.apply Catalog.removeAlias Catalog.mapAliases
    dsimp only
    split <;> simp_all

end Actions

section Blind

variable {unicode : Unicode}

def CatalogEvent.LeavesNames (catalog : Catalog) : CatalogEvent unicode → Prop
  | .createIndex index _ _ _ => catalog.indexExists index = true
  | .indexDocument index _ _ => catalog.indexExists index = true
  | .createDocument index _ _ => catalog.indexExists index = true
  | .setMapping index _ => catalog.indexExists index = true
  | .applyDocumentWrites operations =>
    ∀ name ∈ operations.flatMap DocumentWriteOperation.written, catalog.indexExists name = true
  | .deleteIndex _ => False
  | .addAlias _ _ _ => False
  | .removeAlias _ _ => False
  | _ => True

/- The access neither looks at the aliases nor changes them. -/
def StoreAccess.AliasBlind (catalog : Catalog) : StoreAccess unicode → Prop
  | .indexExists _ => True
  | .indexNames => True
  | .change e => e.LeavesNames catalog
  | _ => False

instance (catalog : Catalog) (e : CatalogEvent unicode) : Decidable (e.LeavesNames catalog) := by
  unfold CatalogEvent.LeavesNames
  rcases e with ⟨⟩ <;> infer_instance

instance (catalog : Catalog) (access : StoreAccess unicode) : Decidable (access.AliasBlind catalog) := by
  unfold StoreAccess.AliasBlind
  cases access <;> infer_instance

namespace Catalog

variable {catalog : Catalog}
  (f : SortedMap String (SortedMap String Value) → SortedMap String (SortedMap String Value))

@[simp] theorem indexExists_mapAliases (index : String) :
    (catalog.mapAliases f).indexExists index = catalog.indexExists index := rfl

theorem modify_mapAliases (index : String) (change : StoredIndex → StoredIndex) :
    (catalog.mapAliases f).modify index change = (catalog.modify index change).mapAliases f := by
  unfold modify mapAliases
  dsimp only
  split <;> rfl

theorem indexDocument_mapAliases {index : String} (there : catalog.indexExists index = true) (id : String)
    (source : Value) : (catalog.mapAliases f).indexDocument index id source =
      (catalog.indexDocument index id source).mapAliases f := by
  simp [indexDocument, ensureIndex_of_exists, there, modify_mapAliases]

theorem createDocument_mapAliases {index : String} (there : catalog.indexExists index = true) (id : String)
    (source : Value) : (catalog.mapAliases f).createDocument index id source =
      ((catalog.createDocument index id source).1,
        (catalog.createDocument index id source).2.mapAliases f) := by
  have same : (catalog.mapAliases f).hasDocument index id = catalog.hasDocument index id := rfl
  simp only [createDocument, indexExists_mapAliases, ensureIndex_of_exists, there, same,
    modify_mapAliases]
  split <;> rfl

theorem applyDocumentWrite_mapAliases {operation : DocumentWriteOperation}
    (there : ∀ name ∈ operation.written, catalog.indexExists name = true) :
    (catalog.mapAliases f).applyDocumentWrite operation =
      ((catalog.applyDocumentWrite operation).1,
        (catalog.applyDocumentWrite operation).2.mapAliases f) := by
  cases operation with
  | index index id source status =>
    simp [applyDocumentWrite, indexDocument_mapAliases f (there index List.mem_cons_self)]
  | create index id source =>
    have created := createDocument_mapAliases f (there index List.mem_cons_self) id source
    unfold applyDocumentWrite
    dsimp only
    rw [created]
    cases catalog.createDocument index id source with
    | mk done after => cases done <;> rfl
  | delete index id => simp [applyDocumentWrite, deleteDocument, modify_mapAliases]

theorem applyDocumentWrites_mapAliases {operations : List DocumentWriteOperation}
    (there : ∀ name ∈ operations.flatMap DocumentWriteOperation.written, catalog.indexExists name = true) :
    (catalog.mapAliases f).writeResults operations = catalog.writeResults operations ∧
      (catalog.mapAliases f).applyDocumentWrites operations =
        (catalog.applyDocumentWrites operations).mapAliases f := by
  induction operations generalizing catalog with
  | nil => exact ⟨rfl, rfl⟩
  | cons operation rest ih =>
    rw [List.flatMap_cons] at there
    have first := applyDocumentWrite_mapAliases f fun name member =>
      there name (List.mem_append_left _ member)
    have still : ∀ name ∈ rest.flatMap DocumentWriteOperation.written,
        (catalog.applyDocumentWrite operation).2.indexExists name = true := by
      intro name member
      exact (wrote_applyDocumentWrite operation).kept (there name (List.mem_append_right _ member))
    have later := ih still
    constructor
    · rw [writeResults, writeResults, first, later.1]
    · unfold applyDocumentWrites at later ⊢
      rw [List.foldl_cons, List.foldl_cons, first]
      exact later.2

end Catalog

variable {catalog : Catalog} {access : StoreAccess unicode}

theorem blind_commutes (blind : access.AliasBlind catalog)
    (f : SortedMap String (SortedMap String Value) → SortedMap String (SortedMap String Value)) :
    access.serve (catalog.mapAliases f) =
      ((access.serve catalog).1, (access.serve catalog).2.mapAliases f) := by
  cases access with
  | indexExists index => rfl
  | indexNames => rfl
  | change e =>
    unfold StoreAccess.serve
    dsimp only
    cases e with
    | createIndex index mapping settings aliases =>
      have there : catalog.indexExists index = true := blind
      simp [CatalogEvent.step, CatalogEvent.answer, Catalog.createIndex, Catalog.createIndexIfMissing, there]
    | indexDocument index id source =>
      exact Prod.ext rfl (Catalog.indexDocument_mapAliases f blind id source)
    | createDocument index id source =>
      simp [CatalogEvent.step, CatalogEvent.answer, Catalog.createDocument_mapAliases f blind]
    | deleteDocument index id => exact Prod.ext rfl (Catalog.modify_mapAliases f index _)
    | applyDocumentWrites operations =>
      obtain ⟨results, stored⟩ := Catalog.applyDocumentWrites_mapAliases f blind
      exact Prod.ext (congrArg ChangeAnswer.written results) stored
    | setMapping index mapping =>
      have there : catalog.indexExists index = true := blind
      simp [CatalogEvent.step, CatalogEvent.answer, Catalog.setMapping, there, Catalog.modify_mapAliases]
    | mergeFieldMappings index mapping => exact Prod.ext rfl (Catalog.modify_mapAliases f index _)
    | deleteIndex index => cases blind
    | addAlias index aliasName definition => cases blind
    | removeAlias index aliasName => cases blind
    | putIndexTemplate name indexPatterns composedOf priority template =>
      refine Prod.ext rfl ?_
      simp only [CatalogEvent.step, Catalog.putIndexTemplate, Catalog.mapAliases]
      split <;> rfl
    | deleteIndexTemplate name => rfl
    | putComponentTemplate name template => rfl
    | deleteComponentTemplate name => rfl
  | aliasExists aliasName => cases blind
  | indicesForAlias aliasName => cases blind
  | aliasDefinitionsForIndex index => cases blind
  | resolveWriteTarget target => cases blind
  | resolveIndex target => cases blind

theorem blind_indexExists (blind : access.AliasBlind catalog) {name : String}
    (there : catalog.indexExists name = true) : (access.serve catalog).2.indexExists name = true := by
  cases access with
  | indexExists index => exact there
  | indexNames => exact there
  | change e =>
    cases e with
    | createIndex index mapping settings aliases =>
      exact (Catalog.wrote_createIndexIfMissing index _ _ _).kept there
    | indexDocument index id source => exact (Catalog.wrote_indexDocument index id source).kept there
    | createDocument index id source => exact (Catalog.wrote_createDocument index id source).kept there
    | deleteDocument index id => exact (Catalog.wrote_modify index _).kept there
    | applyDocumentWrites operations => exact (Catalog.wrote_applyDocumentWrites operations).kept there
    | setMapping index mapping =>
      have here : catalog.indexExists index = true := blind
      simpa [StoreAccess.serve, CatalogEvent.step, Catalog.setMapping, here] using there
    | mergeFieldMappings index mapping => exact (Catalog.wrote_modify index _).kept there
    | deleteIndex index => cases blind
    | addAlias index aliasName definition => cases blind
    | removeAlias index aliasName => cases blind
    | putIndexTemplate name indexPatterns composedOf priority template =>
      simp only [StoreAccess.serve, CatalogEvent.step, Catalog.putIndexTemplate]
      split
      · exact there
      · exact there
    | deleteIndexTemplate name => exact there
    | putComponentTemplate name template => exact there
    | deleteComponentTemplate name => exact there
  | aliasExists aliasName => cases blind
  | indicesForAlias aliasName => cases blind
  | aliasDefinitionsForIndex index => cases blind
  | resolveWriteTarget target => cases blind
  | resolveIndex target => cases blind

end Blind

section Programs

variable (unicode : Unicode) (actions : List AliasAction)

def applying : List AliasAction → StoreProgram unicode (Except OpenSearchError Unit)
  | [] => .done (.ok ())
  | action :: rest => .ask (.change (action.event unicode)) fun _ => applying rest

def checking : List AliasAction → StoreProgram unicode (Except OpenSearchError Unit)
  | [] => applying unicode actions
  | .add index _ _ :: rest => .ask (.indexExists index) fun there =>
    if there then checking rest else .done (.error (indexMissing index))
  | .remove _ _ :: rest => checking rest

theorem applyActions_bind (remaining : List AliasAction) :
    (applyActions unicode remaining >>= fun _ => .done (.ok ())) = applying unicode remaining := by
  induction remaining with
  | nil => rfl
  | cons action rest ih => simp [applyActions, change, applying, ih]

theorem aliasesStateHandler_eq : aliasesStateHandler unicode actions = checking unicode actions actions := by
  have from_check (respond : Option OpenSearchError → StoreProgram unicode _)
      (refused : ∀ error, respond (some error) = .done (.error error))
      (accepted : respond none = applyActions unicode actions >>= fun _ => .done (.ok ()))
      (remaining : List AliasAction) : (checkActions unicode remaining >>= respond) =
        checking unicode actions remaining := by
    induction remaining with
    | nil => exact accepted.trans (applyActions_bind unicode actions)
    | cons action rest ih =>
      cases action with
      | add index aliasName definition =>
        simp only [checkActions, indexExists, Program.request_bind, Program.ask_bind, checking]
        congr 1
        funext there
        cases there with
        | true => exact ih
        | false => exact refused _
      | remove index aliasName => exact ih
  exact from_check _ (fun _ => rfl) rfl actions

end Programs

section Runs

variable {unicode : Unicode} {actions : List AliasAction}

variable (unicode actions) in
def startBatch (catalog : Catalog) :
    Session (StoreAccess unicode) StoreAccess.Answer (Except OpenSearchError Unit) Catalog :=
  .start (aliasesStateHandler unicode actions) catalog

abbrev Batch (unicode : Unicode) :=
  Session (StoreAccess unicode) StoreAccess.Answer (Except OpenSearchError Unit) Catalog

variable (actions) in
/- When the batch makes its first change, the indices that it has checked are still there; from then on
to its last change, the others neither look at the aliases nor change them. -/
def Undisturbed (batch : Batch unicode) : SessionEvent (StoreAccess unicode) → Prop
  | .own => batch.turn = checks actions → batch.rest.result?.isNone → Applicable actions batch.store
  | .other access => checks actions < batch.turn → batch.turn < checks actions + actions.length →
    access.AliasBlind batch.store

instance (batch : Batch unicode) (e : SessionEvent (StoreAccess unicode)) :
    Decidable (Undisturbed actions batch e) := by
  unfold Undisturbed
  cases e <;> infer_instance

variable (actions) in
def Early (batch : Batch unicode) : Prop :=
  (∃ remaining, batch.rest = checking unicode actions remaining ∧
    batch.turn + checks remaining = checks actions) ∨ ∃ error, batch.rest = .done (.error error)

variable (actions) in
def Late (batch : Batch unicode) (left : Catalog → Catalog) : Prop :=
  ∃ remaining, batch.rest = applying unicode remaining ∧ left = applyAll remaining ∧
    checks actions < batch.turn ∧ batch.turn + remaining.length = checks actions + actions.length ∧
    Applicable remaining batch.store

theorem applyAll_mapAliases (remaining : List AliasAction) :
    ∃ f, ∀ catalog, applyAll remaining catalog = catalog.mapAliases f := by
  induction remaining with
  | nil => exact ⟨fun aliases => aliases, fun _ => rfl⟩
  | cons action rest ih =>
    obtain ⟨first, applied⟩ := action.apply_mapAliases
    obtain ⟨then_, later⟩ := ih
    refine ⟨fun aliases => then_ (first aliases), fun catalog => ?_⟩
    calc applyAll (action :: rest) catalog = applyAll rest (action.apply catalog) := rfl
      _ = (catalog.mapAliases first).mapAliases then_ := by rw [applied, later]

theorem Applicable.of_indexExists {catalog after : Catalog} {remaining : List AliasAction}
    (applicable : Applicable remaining catalog)
    (kept : ∀ name, catalog.indexExists name = true → after.indexExists name = true) :
    Applicable remaining after := by
  intro action member
  have here := applicable action member
  cases action with
  | add index aliasName definition => exact kept index here
  | remove index aliasName => trivial

theorem Applicable.apply {catalog : Catalog} {action : AliasAction} {rest : List AliasAction}
    (applicable : Applicable (action :: rest) catalog) : Applicable rest (action.apply catalog) := by
  obtain ⟨f, applied⟩ := action.apply_mapAliases
  rw [applied]
  have later : Applicable rest catalog := fun other member =>
    applicable other (List.mem_cons_of_mem _ member)
  exact later.of_indexExists fun _ there => there

theorem Applicable.step {batch : Batch unicode} {action : AliasAction} {rest : List AliasAction}
    (applicable : Applicable (action :: rest) batch.store)
    (here : batch.rest = applying unicode (action :: rest)) :
    batch.step StoreAccess.serve .own = ⟨action.apply batch.store, batch.turn + 1, applying unicode rest⟩ := by
  have stepped : (action.event unicode).step batch.store = action.apply batch.store := by
    have there := applicable action List.mem_cons_self
    cases action with
    | add index aliasName definition => exact if_pos there
    | remove index aliasName => rfl
  rw [Session.step_ask here, StoreAccess.serve, stepped]

variable (unicode actions) in
theorem checking_cases (remaining : List AliasAction) :
    (∃ index rest, checks remaining = checks rest + 1 ∧ checking unicode actions remaining =
      .ask (.indexExists index) fun there =>
        if there then checking unicode actions rest else .done (.error (indexMissing index))) ∨
    checks remaining = 0 ∧ checking unicode actions remaining = applying unicode actions := by
  induction remaining with
  | nil => exact .inr ⟨rfl, rfl⟩
  | cons action rest ih =>
    cases action with
    | add index aliasName definition => exact .inl ⟨index, rest, rfl, rfl⟩
    | remove index aliasName => exact ih

theorem Early.own {batch : Batch unicode} (early : Early actions batch)
    (allowed : Undisturbed actions batch .own) :
    (batch.step StoreAccess.serve .own).store = batch.store ∧
        Early actions (batch.step StoreAccess.serve .own) ∨
      Applicable actions batch.store ∧ ∃ left, Late actions (batch.step StoreAccess.serve .own) left ∧
        left (batch.step StoreAccess.serve .own).store = applyAll actions batch.store := by
  rcases early with ⟨remaining, here, turn⟩ | ⟨error, here⟩
  · rcases checking_cases unicode actions remaining with ⟨index, rest, fewer, asks⟩ | ⟨last, applies⟩
    · left
      have either (there : Bool) : Early actions ⟨batch.store, batch.turn + 1,
          if there then checking unicode actions rest else .done (.error (indexMissing index))⟩ := by
        cases there with
        | true => exact .inl ⟨rest, rfl, by dsimp only; omega⟩
        | false => exact .inr ⟨_, rfl⟩
      rw [Session.step_ask (here.trans asks)]
      exact ⟨rfl, either (batch.store.indexExists index)⟩
    · have here := here.trans applies
      cases actions with
      | nil =>
        left
        rw [Session.step_done here]
        exact ⟨rfl, .inl ⟨[], here, by simpa [last, checks] using turn⟩⟩
      | cons action rest =>
        have applicable := allowed (by omega) (by rw [here]; rfl)
        right
        rw [applicable.step here]
        refine ⟨applicable, applyAll rest, ⟨rest, rfl, rfl, ?_, ?_, applicable.apply⟩, rfl⟩
        · dsimp only
          omega
        · simp only [List.length_cons]
          omega
  · left
    rw [Session.step_done here]
    exact ⟨rfl, .inr ⟨error, here⟩⟩

theorem Late.own {batch : Batch unicode} {left : Catalog → Catalog} (late : Late actions batch left) :
    ∃ left', Late actions (batch.step StoreAccess.serve .own) left' ∧
      left' (batch.step StoreAccess.serve .own).store = left batch.store := by
  obtain ⟨remaining, here, rfl, begun, turn, applicable⟩ := late
  cases remaining with
  | nil =>
    rw [Session.step_done here]
    exact ⟨_, ⟨[], here, rfl, begun, turn, applicable⟩, rfl⟩
  | cons action rest =>
    rw [applicable.step here]
    rw [List.length_cons] at turn
    refine ⟨applyAll rest, ⟨rest, rfl, rfl, Nat.lt_succ_of_lt begun, ?_, applicable.apply⟩, rfl⟩
    dsimp only
    omega

theorem Late.other {batch : Batch unicode} {left : Catalog → Catalog} (late : Late actions batch left)
    {access : StoreAccess unicode} (allowed : Undisturbed actions batch (.other access)) :
    Late actions (batch.step StoreAccess.serve (.other access)) left ∧
      access.serve (left batch.store) =
        ((access.serve batch.store).1, left (access.serve batch.store).2) := by
  obtain ⟨remaining, here, rfl, begun, turn, applicable⟩ := late
  cases remaining with
  | nil => exact ⟨⟨[], here, rfl, begun, turn, fun _ member => by cases member⟩, rfl⟩
  | cons action rest =>
    have blind : access.AliasBlind batch.store := by
      rw [List.length_cons] at turn
      exact allowed begun (by omega)
    constructor
    · exact ⟨action :: rest, here, rfl, begun, turn,
        applicable.of_indexExists fun name there => blind_indexExists blind there⟩
    · obtain ⟨f, applied⟩ := applyAll_mapAliases (action :: rest)
      rw [applied, applied]
      exact blind_commutes blind f

theorem batch_rules : Session.Rules StoreAccess.serve (applyAll actions) (Applicable actions)
    (Early actions) (Late actions) (@Undisturbed unicode actions) where
  early_own _ early allowed := early.own allowed
  early_other _ _ early := early
  late_own _ _ late _ := late.own
  late_other _ _ _ late allowed := late.other allowed

/-- A batch that the others leave to itself while it changes the aliases cannot be told from one step
that applies all of its actions; one that is refused cannot be noticed. -/
theorem batch_at_once (catalog : Catalog) {events : List (SessionEvent (StoreAccess unicode))}
    (undisturbed : Admitted (Session.step StoreAccess.serve) (Undisturbed actions)
      (startBatch unicode actions catalog) events) :
    let batch := startBatch unicode actions catalog
    let result := (runEvents (Session.step StoreAccess.serve) events batch).rest.result?
    Session.AnsweredAtOnce StoreAccess.serve (applyAll actions) batch events ∧
      (result = some (.ok ()) →
        Session.AtOnce StoreAccess.serve (applyAll actions) (Applicable actions) batch events) ∧
      ∀ error, result = some (.error error) → Session.Unnoticed StoreAccess.serve batch events := by
  intro batch result
  have early : Early actions batch :=
    .inl ⟨actions, aliasesStateHandler_eq unicode actions, Nat.zero_add _⟩
  rcases batch_rules.run early undisturbed with
    ⟨ended, unnoticed⟩ | ⟨left, ended, before, after, split, ready, answered, changed⟩
  · refine ⟨unnoticed.answered _, fun acknowledged => ?_, fun _ _ => unnoticed⟩
    have none_left : actions = [] := by
      rcases ended with ⟨remaining, here, -⟩ | ⟨error, here⟩
      · rcases checking_cases unicode actions remaining with ⟨index, rest, -, asks⟩ | ⟨-, applies⟩
        · simp [result, batch, here, asks, Program.result?] at acknowledged
        · cases actions with
          | nil => rfl
          | cons action rest => simp [result, batch, here, applies, applying, Program.result?] at acknowledged
      · simp [result, batch, here, Program.result?] at acknowledged
    subst none_left
    exact unnoticed.atOnce fun _ _ member => by cases member
  · refine ⟨⟨before, after, split, answered⟩, fun acknowledged => ?_, fun error refused => ?_⟩
    · obtain ⟨remaining, here, rfl, -⟩ := ended
      cases remaining with
      | nil => exact ⟨before, after, split, ready, answered, changed⟩
      | cons action rest => simp [result, batch, here, applying, Program.result?] at acknowledged
    · obtain ⟨remaining, here, -⟩ := ended
      cases remaining <;> simp [result, batch, here, applying, Program.result?] at refused

section Swap

def swapEvents : List (CatalogEvent .ascii) :=
  [.createIndex "deces-2023" none (.object []) (.singleton "deces" (.object [])),
    .createIndex "deces-2024" none (.object []) .empty]

def swapActions : List AliasAction :=
  [.remove "deces-2023" "deces", .add "deces-2024" "deces" (.object [])]

def resolvedNames : Sigma (@StoreAccess.Answer .ascii) → List String
  | ⟨.resolveIndex _, names⟩ => names
  | _ => []

theorem batch_at_once_swap :
    Session.AnsweredAtOnce StoreAccess.serve (applyAll swapActions)
      (startBatch .ascii swapActions (runEvents CatalogEvent.step swapEvents .empty))
      [.other (.resolveIndex "deces"), .own, .own, .other .indexNames, .own,
        .other (.resolveIndex "deces")] :=
  (batch_at_once (runEvents CatalogEvent.step swapEvents .empty) (by decide +kernel)).1

/-- A search between the two actions finds that the alias stands for nothing. -/
theorem not_batch_at_once : ¬ ∀ (earlier : List (CatalogEvent .ascii)) (actions : List AliasAction)
    (events : List (SessionEvent (StoreAccess .ascii))),
    let batch := startBatch .ascii actions (runEvents CatalogEvent.step earlier .empty)
    Session.AnsweredAtOnce StoreAccess.serve (applyAll actions) batch events ∧
      ((runEvents (Session.step StoreAccess.serve) events batch).rest.result? = some (.ok ()) →
        Session.AtOnce StoreAccess.serve (applyAll actions) (Applicable actions) batch events) := by
  intro every
  obtain ⟨⟨before, after, split, answered⟩, -⟩ := every swapEvents swapActions
    [.own, .own, .other (.resolveIndex "deces"), .own]
  have names := congrArg (List.map resolvedNames) answered
  cases before with
  | nil =>
    cases split
    revert names
    decide +kernel
  | cons access rest =>
    cases rest with
    | nil =>
      cases split
      revert names
      decide +kernel
    | cons other more => cases split

end Swap

end Runs

end Surch.Api
