import Surch.Api.Requests
import Surch.Lib.Lines
import Surch.Lib.Framing

/-! `_bulk`: how a body of action and source lines is read into one result for each item, and how the
operations among them are written. -/
namespace Surch.Api
open Surch.Lib Surch.Postings

section Operations

inductive BulkOperation where
  | index (index id : Option String) (source : Value)
  | create (index id : Option String) (source : Value)
  | delete (index id : Option String)
  | update (index id : Option String) (source : Value)

inductive BulkParseError (ε : Type) where
  | invalidActionJson (line : Nat) (source : ε)
  | invalidSourceJson (line : Nat) (action : String) (source : ε)
  | invalidAction (line : Nat) (reason : String)
  | unknownAction (line : Nat) (action : String)
  | missingSource (line : Nat) (action : String)
  | sourceNotObject (line : Nat) (action : String)

def BulkParseError.message {ε : Type} (display : ε → String) : BulkParseError ε → String
  | .invalidActionJson line source => s!"invalid bulk action json at line {line}: {display source}"
  | .invalidSourceJson line _ source => s!"invalid bulk source json at line {line}: {display source}"
  | .invalidAction line reason => s!"invalid bulk action at line {line}: {reason}"
  | .unknownAction line action => s!"unknown bulk action `{action}` at line {line}"
  | .missingSource line action => s!"missing source line after `{action}` action at line {line}"
  | .sourceNotObject line action => s!"bulk {action} source line at line {line} must be a JSON object"

structure BulkParseItemError (ε : Type) where
  index : Option String
  id : Option String
  error : BulkParseError ε

abbrev BulkItemParseResult (ε : Type) := Except (BulkParseItemError ε) BulkOperation

structure BulkMetadata where
  index : Option String
  id : Option String

end Operations

section Parsing

def indexNameForbiddenCharacters : List Char :=
  [':', '"', '*', '+', '/', '\\', '|', '?', '#', '>', '<', ',', ' ', '\t']

def validateIndexName (index : String) : Bool :=
  let trimmed := trimmed isWhitespace index.toList
  !(trimmed.isEmpty || trimmed.head? == some '_' || trimmed.head? == some '-' || trimmed.contains ',' ||
    trimmed.any (fun character => indexNameForbiddenCharacters.contains character) ||
    trimmed.any fun character => 'A' ≤ character && character ≤ 'Z')

variable {ε : Type}

def emptyFieldReason (field : String) : String :=
  match field with
  | "_index" => "_index metadata must not be empty"
  | "_id" => "_id metadata must not be empty"
  | _ => "metadata field must not be empty"

def stringFieldReason (field : String) : String :=
  match field with
  | "_index" => "_index metadata must be a string"
  | "_id" => "_id metadata must be a string"
  | _ => "metadata field must be a string"

def optionalStringField (value : Option Value) (line : Nat) (field : String) :
    Except (BulkParseError ε) (Option String) :=
  match value with
  | some (.string value) =>
    if value.isEmpty then .error (.invalidAction line (emptyFieldReason field))
    else if field = "_index" ∧ ¬validateIndexName value then
      .error (.invalidAction line "_index metadata must be a valid index name")
    else .ok (some value)
  | some _ => .error (.invalidAction line (stringFieldReason field))
  | none => .ok none

def parseMetadata (value : Value) (line : Nat) : Except (BulkParseError ε) BulkMetadata :=
  match value with
  | .object object => do
    let index ← optionalStringField (object.lookup "_index") line "_index"
    let id ← optionalStringField (object.lookup "_id") line "_id"
    return ⟨index, id⟩
  | _ => .error (.invalidAction line "action metadata must be a JSON object")

/- The action and its metadata, or an error with the name of the action as far as there is one. -/
abbrev ActionLineResult (ε : Type) :=
  Except (Option String × BulkParseError ε) (String × BulkMetadata)

variable (fromStr : String → Except ε Value)

def parseActionLine (actionLine : String) (line : Nat) : ActionLineResult ε :=
  match fromStr actionLine with
  | .error source => .error (none, .invalidActionJson line source)
  | .ok (.object [(action, metadata)]) =>
    match parseMetadata metadata line with
    | .ok metadata => .ok (action, metadata)
    | .error error => .error (some action, error)
  | .ok (.object _) => .error (none, .invalidAction line "action line must contain exactly one action")
  | .ok _ => .error (none, .invalidAction line "action line must be a JSON object")

def parseRequiredSource (lines : List (String × Nat)) (actionLine : Nat) (action : String) :
    Except (BulkParseError ε) Value :=
  match lines with
  | [] => .error (.missingSource actionLine action)
  | (sourceLine, sourceLineIndex) :: _ =>
    let line := sourceLineIndex + 1
    match fromStr sourceLine with
    | .error source => .error (.invalidSourceJson line action source)
    | .ok (.object entries) => .ok (.object entries)
    | .ok _ => .error (.sourceNotObject line action)

def sourceItem (metadata : BulkMetadata) (line : Nat) (action : String)
    (operation : Option String → Option String → Value → BulkOperation) (lines : List (String × Nat)) :
    BulkItemParseResult ε × List (String × Nat) :=
  match parseRequiredSource fromStr lines line action with
  | .ok source => (.ok (operation metadata.index metadata.id source), lines.tail)
  | .error error => (.error ⟨metadata.index, metadata.id, error⟩, lines.tail)

def parseItem (actionLine : String) (line : Nat) (lines : List (String × Nat)) :
    BulkItemParseResult ε × List (String × Nat) :=
  match parseActionLine fromStr actionLine line with
  | .ok (action, metadata) =>
    match action with
    | "index" => sourceItem fromStr metadata line "index" .index lines
    | "create" => sourceItem fromStr metadata line "create" .create lines
    | "delete" => (.ok (.delete metadata.index metadata.id), lines)
    | "update" => sourceItem fromStr metadata line "update" .update lines
    | _ => (.error ⟨metadata.index, metadata.id, .unknownAction line action⟩, lines)
  | .error (some action, error) =>
    -- The paired line is discarded, so that the next turn reads an action line again.
    (.error ⟨none, none, error⟩,
      if action = "index" ∨ action = "create" ∨ action = "update" then lines.tail else lines)
  | .error (none, error) =>
    -- "There is no reliable arity to resync against, so parsing simply resumes at the next line."
    (.error ⟨none, none, error⟩, lines)

def recoveredAction (line : String) : Option String :=
  match fromStr line with
  | .ok (.object [(action, _)]) => some action
  | _ => none

def sourceLines (line : String) : Nat :=
  match recoveredAction fromStr line with
  | some action => if action = "index" ∨ action = "create" ∨ action = "update" then 1 else 0
  | none => 0

theorem sourceItem_rest (metadata : BulkMetadata) (line : Nat) (action : String)
    (operation : Option String → Option String → Value → BulkOperation) (lines : List (String × Nat)) :
    (sourceItem fromStr metadata line action operation lines).2 = lines.drop 1 := by
  rw [List.drop_one]
  unfold sourceItem
  cases parseRequiredSource fromStr lines line action <;> rfl

def ActionLineResult.name : ActionLineResult ε → Option String
  | .ok (action, _) => some action
  | .error (action, _) => action

/-- The name is recovered from the line alone, whether or not its metadata is sound. -/
theorem parseActionLine_name (actionLine : String) (line : Nat) :
    ActionLineResult.name (parseActionLine fromStr actionLine line) =
      recoveredAction fromStr actionLine := by
  unfold parseActionLine recoveredAction
  rcases fromStr actionLine with source | value
  · rfl
  · cases value with
    | object entries =>
      match entries with
      | [] => rfl
      | [(action, metadata)] =>
        dsimp only
        cases (parseMetadata metadata line : Except (BulkParseError ε) BulkMetadata) <;> rfl
      | _ :: _ :: _ => rfl
    | _ => rfl

theorem parseItem_rest (actionLine : String) (line : Nat) (lines : List (String × Nat)) :
    (parseItem fromStr actionLine line lines).2 = lines.drop (sourceLines fromStr actionLine) := by
  have named := parseActionLine_name fromStr actionLine line
  unfold parseItem sourceLines
  rw [← named]
  rcases parseActionLine fromStr actionLine line with ⟨action | action, error⟩ | ⟨action, metadata⟩
  · rfl
  · by_cases taking : action = "index" ∨ action = "create" ∨ action = "update" <;>
      simp [ActionLineResult.name, taking]
  · dsimp only [ActionLineResult.name]
    split
    · exact sourceItem_rest fromStr metadata line _ _ lines
    · exact sourceItem_rest fromStr metadata line _ _ lines
    · simp
    · exact sourceItem_rest fromStr metadata line _ _ lines
    · rename_i notIndex notCreate notDelete notUpdate
      have takesNone : ¬(action = "index" ∨ action = "create" ∨ action = "update") := by
        rintro (isIndex | isCreate | isUpdate)
        · exact notIndex isIndex
        · exact notCreate isCreate
        · exact notUpdate isUpdate
      rw [if_neg takesNone, List.drop_zero]

def parseItems : List (String × Nat) → List (BulkItemParseResult ε)
  | [] => []
  | (actionLine, index) :: rest =>
    (parseItem fromStr actionLine (index + 1) rest).1 ::
      parseItems (parseItem fromStr actionLine (index + 1) rest).2
termination_by lines => lines.length
decreasing_by rw [parseItem_rest]; simp only [List.length_drop, List.length_cons]; omega

def parseBulkNdjson (input : String) : List (BulkItemParseResult ε) :=
  parseItems fromStr (((textLines input.toList).map String.ofList).zipIdx)

end Parsing

section Writes

structure BulkItemError where
  errorType : String
  reason : String
deriving DecidableEq

structure BulkItemStatus where
  index : Option String
  id : Option String
  status : Nat
  error : Option BulkItemError
deriving DecidableEq

inductive BulkActionKind where
  | index
  | create
  | delete
  | update
deriving DecidableEq

structure BulkResponseItem where
  kind : BulkActionKind
  status : BulkItemStatus
deriving DecidableEq

def itemStatusWithError (index id : Option String) (status : Nat) (errorType reason : String) :
    BulkItemStatus :=
  ⟨index, id, status, some ⟨errorType, reason⟩⟩

variable (catalog : Catalog)

def resolveBulkTarget (index id : Option String) : Except BulkItemStatus (String × String) :=
  match id, index with
  | none, _ => .error (itemStatusWithError index none 400 "illegal_argument_exception"
    "missing _id in bulk operation metadata")
  | some id, none => .error (itemStatusWithError none (some id) 400 "illegal_argument_exception"
    "missing _index in bulk operation metadata")
  | some id, some index =>
    match catalog.resolveWriteTarget index with
    | .ok resolved => .ok (id, resolved)
    | .error reason => .error (itemStatusWithError (some index) (some id) 400
      "illegal_argument_exception" reason)

def resolvedWrite (kind : BulkActionKind) (index id : Option String)
    (write : String → String → DocumentWriteOperation) :
    Except BulkResponseItem (BulkActionKind × DocumentWriteOperation) :=
  match resolveBulkTarget catalog index id with
  | .ok (id, resolved) => .ok (kind, write resolved id)
  | .error status => .error ⟨kind, status⟩

def updateSource : Value → Value
  | .object entries => (entries.lookup "doc").getD (.object entries)
  | source => source

def buildBulkWriteOperation :
    BulkOperation → Except BulkResponseItem (BulkActionKind × DocumentWriteOperation)
  | .index index id source =>
    resolvedWrite catalog .index index id fun resolved id => .index resolved id source 201
  | .update index id source =>
    resolvedWrite catalog .update index id fun resolved id => .index resolved id (updateSource source) 200
  | .create index id source =>
    resolvedWrite catalog .create index id fun resolved id => .create resolved id source
  | .delete index id => resolvedWrite catalog .delete index id fun resolved id => .delete resolved id

variable {ε : Type} (display : ε → String)

/- The key that an error stands under: where only the source is at fault, that of its action. -/
def BulkParseError.kind : BulkParseError ε → BulkActionKind
  | .missingSource _ action | .sourceNotObject _ action | .invalidSourceJson _ action _ =>
    match action with
    | "create" => .create
    | "update" => .update
    | _ => .index
  | _ => .index

def bulkResponseItemForParseError (itemError : BulkParseItemError ε) : BulkResponseItem :=
  ⟨itemError.error.kind, itemStatusWithError itemError.index itemError.id 400 "parse_exception"
    (itemError.error.message display)⟩

def bulkSlot (item : BulkItemParseResult ε) :
    Except BulkResponseItem (BulkActionKind × DocumentWriteOperation) :=
  match item with
  | .ok operation => buildBulkWriteOperation catalog operation
  | .error parseError => .error (bulkResponseItemForParseError display parseError)

def bulkWrites (operations : List (BulkItemParseResult ε)) : List DocumentWriteOperation :=
  operations.filterMap fun item => (bulkSlot catalog display item).toOption.map Prod.snd

end Writes

end Surch.Api
