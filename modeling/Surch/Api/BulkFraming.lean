import Surch.Api.Bulk

/-! The framing of `_bulk` bodies: a body of groups, any lines of which were replaced by others, and
which of its lines are then read as actions. -/
namespace Surch.Api
open Surch.Lib Surch.Postings

section Frames

variable {ε : Type} (fromStr : String → Except ε Value)

def actionLines : List (String × Nat) → List (String × Nat)
  | [] => []
  | (actionLine, index) :: rest =>
    (actionLine, index) :: actionLines (parseItem fromStr actionLine (index + 1) rest).2
termination_by lines => lines.length
decreasing_by rw [parseItem_rest]; simp only [List.length_drop, List.length_cons]; omega

def lineArity (line : String × Nat) : Nat := sourceLines fromStr line.1

def frameItem (frame : (String × Nat) × List (String × Nat)) : BulkItemParseResult ε :=
  (parseItem fromStr frame.1.1 (frame.1.2 + 1) frame.2).1

theorem parseRequiredSource_take (lines : List (String × Nat)) (line : Nat) (action : String) :
    parseRequiredSource fromStr (lines.take 1) line action =
      parseRequiredSource fromStr lines line action := by
  cases lines <;> rfl

theorem sourceItem_take (metadata : BulkMetadata) (line : Nat) (action : String)
    (operation : Option String → Option String → Value → BulkOperation) (lines : List (String × Nat)) :
    (sourceItem fromStr metadata line action operation (lines.take 1)).1 =
      (sourceItem fromStr metadata line action operation lines).1 := by
  unfold sourceItem
  rw [parseRequiredSource_take]
  cases parseRequiredSource fromStr lines line action <;> rfl

theorem parseItem_take (actionLine : String) (line : Nat) (lines : List (String × Nat)) :
    (parseItem fromStr actionLine line (lines.take (sourceLines fromStr actionLine))).1 =
      (parseItem fromStr actionLine line lines).1 := by
  have named := parseActionLine_name fromStr actionLine line
  unfold parseItem sourceLines
  rw [← named]
  rcases parseActionLine fromStr actionLine line with ⟨action | action, error⟩ | ⟨action, metadata⟩
  · rfl
  · rfl
  · dsimp only [ActionLineResult.name]
    split
    · exact sourceItem_take fromStr metadata line _ _ lines
    · exact sourceItem_take fromStr metadata line _ _ lines
    · rfl
    · exact sourceItem_take fromStr metadata line _ _ lines
    · rfl

theorem parseItems_eq (lines : List (String × Nat)) :
    parseItems fromStr lines = (frames (lineArity fromStr) lines).map (frameItem fromStr) := by
  fun_induction parseItems fromStr lines with
  | case1 => rw [frames, List.map_nil]
  | case2 actionLine index rest ih =>
    rw [frames, List.map_cons, ih, parseItem_rest]
    rw [frameItem, lineArity, parseItem_take]

theorem actionLines_eq (lines : List (String × Nat)) :
    actionLines fromStr lines = (frames (lineArity fromStr) lines).map Prod.fst := by
  fun_induction actionLines fromStr lines with
  | case1 => rw [frames, List.map_nil]
  | case2 actionLine index rest ih => rw [frames, List.map_cons, ih, parseItem_rest, lineArity]

end Frames

section Groups

/- An action line, with the source line after it where there is one. -/
structure BulkGroup where
  action : String
  source : Option String
deriving DecidableEq

namespace BulkGroup

def lines (group : BulkGroup) : List String := group.action :: group.source.toList

end BulkGroup

def sourceOperation : String → Option (Option String → Option String → Value → BulkOperation)
  | "index" => some .index
  | "create" => some .create
  | "update" => some .update
  | _ => none

structure NamesTarget (entries : List (String × Value)) (index id : Option String) : Prop where
  indexField : entries.lookup "_index" = index.map .string
  valid : ∀ name ∈ index, name ≠ "" ∧ validateIndexName name = true
  idField : entries.lookup "_id" = id.map .string
  nonempty : ∀ name ∈ id, name ≠ ""

variable {ε : Type} (fromStr : String → Except ε Value)

inductive BulkGroup.Denotes : BulkGroup → BulkOperation → Prop
  | sourced {action source name : String} {entries document : List (String × Value)}
    {index id : Option String} {operation : Option String → Option String → Value → BulkOperation}
    (named : sourceOperation name = some operation)
    (read : fromStr action = .ok (.object [(name, .object entries)]))
    (target : NamesTarget entries index id)
    (content : fromStr source = .ok (.object document)) :
    Denotes ⟨action, some source⟩ (operation index id (.object document))
  | delete {action : String} {entries : List (String × Value)} {index id : Option String}
    (read : fromStr action = .ok (.object [("delete", .object entries)]))
    (target : NamesTarget entries index id) :
    Denotes ⟨action, none⟩ (.delete index id)

def bodyLines (text : String) : List String := (textLines text.toList).map String.ofList

/- A body of groups, each of which stands for an operation, and what became of it when some of its
lines were replaced by others. -/
structure DamagedBody where
  written : List BulkGroup
  damaged : List BulkGroup
  text : String
  formed : ∀ group ∈ written, ∃ operation, group.Denotes fromStr operation
  replaced : List.Forall₂ (fun group other => other.source.isSome = group.source.isSome) written damaged
  lines : bodyLines text = damaged.flatMap BulkGroup.lines

/- The first lines of each group, `share` of them, with their indices in the body. -/
def headLines (share : BulkGroup → Nat) : Nat → List BulkGroup → List (String × Nat)
  | _, [] => []
  | index, group :: rest =>
    (group.lines.zipIdx index).take (share group) ++ headLines share (index + group.lines.length) rest

variable (display : ε → String)

/- `share` lines of each group are read as actions, and no other line is. -/
structure Framed (share : BulkGroup → Nat) (body : DamagedBody fromStr) : Prop where
  actions : actionLines fromStr (bodyLines body.text).zipIdx = headLines share 0 body.damaged
  count : (parseBulkNdjson fromStr body.text).length = (body.damaged.map share).sum
  untouched : ∀ (i : Nat) (group : BulkGroup) (operation : BulkOperation),
    body.written[i]? = some group → body.damaged[i]? = some group → group.Denotes fromStr operation →
    (parseBulkNdjson fromStr body.text)[((body.damaged.take i).map share).sum]? = some (.ok operation)
  deletes : ∀ (catalog : Catalog) (index id : String),
    .delete index id ∈ bulkWrites catalog display (parseBulkNdjson fromStr body.text) →
    ∃ group ∈ body.damaged, ∃ line ∈ group.lines.take (share group), ∃ entries,
      fromStr line = .ok (.object [("delete", .object entries)]) ∧
      entries.lookup "_id" = some (.string id)

end Groups

section Readings

variable {ε : Type} (fromStr : String → Except ε Value)

theorem optionalStringField_named {entries : List (String × Value)} {field : String} {name : Option String}
    (line : Nat) (found : entries.lookup field = name.map .string)
    (nonempty : ∀ text ∈ name, text ≠ "")
    (valid : field = "_index" → ∀ text ∈ name, validateIndexName text = true) :
    (optionalStringField (entries.lookup field) line field : Except (BulkParseError ε) _) =
      .ok name := by
  rw [found]
  cases name with
  | none => rfl
  | some text =>
    have isText : text.isEmpty = false := by
      simpa using nonempty text rfl
    have allowed : ¬(field = "_index" ∧ ¬validateIndexName text = true) := by
      rintro ⟨isIndex, refused⟩
      exact refused (valid isIndex text rfl)
    simp only [Option.map_some, optionalStringField]
    rw [isText, if_neg Bool.false_ne_true, if_neg allowed]

theorem parseMetadata_target {entries : List (String × Value)} {index id : Option String}
    (target : NamesTarget entries index id) (line : Nat) :
    (parseMetadata (.object entries) line : Except (BulkParseError ε) _) = .ok ⟨index, id⟩ := by
  have indexRead := optionalStringField_named (ε := ε) line target.indexField
    (fun name named => (target.valid name named).1) fun _ name named => (target.valid name named).2
  have idRead := optionalStringField_named (ε := ε) line target.idField target.nonempty
    fun absurdField => absurd absurdField (by decide)
  rw [parseMetadata, indexRead, idRead]
  rfl

theorem parseActionLine_target {actionLine name : String} {entries : List (String × Value)}
    {index id : Option String} (read : fromStr actionLine = .ok (.object [(name, .object entries)]))
    (target : NamesTarget entries index id) (line : Nat) :
    parseActionLine fromStr actionLine line = .ok (name, ⟨index, id⟩) := by
  rw [parseActionLine, read]
  dsimp only
  rw [parseMetadata_target target]

theorem sourceItem_read {source : String} {document : List (String × Value)}
    (content : fromStr source = .ok (.object document)) (metadata : BulkMetadata) (line index : Nat)
    (action : String) (operation : Option String → Option String → Value → BulkOperation) :
    (sourceItem fromStr metadata line action operation [(source, index)]).1 =
      .ok (operation metadata.index metadata.id (.object document)) := by
  simp [sourceItem, parseRequiredSource, content]

/-- A group that stands for an operation takes its own lines, and gives that operation. -/
theorem BulkGroup.Denotes.read {group : BulkGroup} {operation : BulkOperation}
    (denotes : group.Denotes fromStr operation) :
    sourceLines fromStr group.action = group.source.toList.length ∧
      ∀ (line : Nat) (index : Nat),
        (parseItem fromStr group.action line (group.source.toList.zipIdx index)).1 = .ok operation := by
  cases denotes with
  | delete read target =>
    refine ⟨?_, fun line index => ?_⟩
    · simp [sourceLines, recoveredAction, read]
    · rw [parseItem, parseActionLine_target fromStr read target]
      rfl
  | @sourced action source name entries document index id operation named read target content =>
    refine ⟨?_, fun line index => ?_⟩
    · unfold sourceOperation at named
      split at named <;> cases named <;> simp [sourceLines, recoveredAction, read]
    · rw [parseItem, parseActionLine_target fromStr read target]
      unfold sourceOperation at named
      split at named <;> cases named <;> exact sourceItem_read fromStr content _ _ _ _ _

theorem optionalStringField_ok {value : Option Value} {line : Nat} {field : String}
    {name : Option String}
    (read : (optionalStringField value line field : Except (BulkParseError ε) _) = .ok name) :
    value = name.map .string := by
  unfold optionalStringField at read
  split at read
  · split at read
    · cases read
    · split at read <;> cases read
      rfl
  · cases read
  · cases read
    rfl

theorem parseActionLine_ok {actionLine action : String} {line : Nat} {metadata : BulkMetadata}
    (read : parseActionLine fromStr actionLine line = .ok (action, metadata)) :
    ∃ entries, fromStr actionLine = .ok (.object [(action, .object entries)]) ∧
      entries.lookup "_id" = metadata.id.map .string := by
  unfold parseActionLine at read
  split at read
  · cases read
  · rename_i name value parsed
    cases value with
    | object entries =>
      cases indexRead : (optionalStringField (entries.lookup "_index") line "_index" :
        Except (BulkParseError ε) _) with
      | error failed =>
        rw [parseMetadata, indexRead] at read
        cases read
      | ok index =>
        cases idRead : (optionalStringField (entries.lookup "_id") line "_id" :
          Except (BulkParseError ε) _) with
        | error failed =>
          rw [parseMetadata, indexRead, idRead] at read
          cases read
        | ok id =>
          rw [parseMetadata, indexRead, idRead] at read
          cases read
          exact ⟨entries, parsed, optionalStringField_ok idRead⟩
    | _ => cases read
  · cases read
  · cases read

theorem sourceItem_ok {metadata : BulkMetadata} {line : Nat} {action : String}
    {operation : Option String → Option String → Value → BulkOperation} {lines : List (String × Nat)}
    {read : BulkOperation} (item : (sourceItem fromStr metadata line action operation lines).1 = .ok read) :
    ∃ source, read = operation metadata.index metadata.id source := by
  unfold sourceItem at item
  split at item
  · cases item
    exact ⟨_, rfl⟩
  · cases item

theorem parseItem_delete {actionLine : String} {line : Nat} {lines : List (String × Nat)}
    {index id : Option String}
    (deletes : (parseItem fromStr actionLine line lines).1 = .ok (.delete index id)) :
    ∃ entries, fromStr actionLine = .ok (.object [("delete", .object entries)]) ∧
      entries.lookup "_id" = id.map .string := by
  unfold parseItem at deletes
  split at deletes
  · rename_i action metadata read
    split at deletes
    · obtain ⟨source, other⟩ := sourceItem_ok fromStr deletes
      cases other
    · obtain ⟨source, other⟩ := sourceItem_ok fromStr deletes
      cases other
    · cases deletes
      exact parseActionLine_ok fromStr read
    · obtain ⟨source, other⟩ := sourceItem_ok fromStr deletes
      cases other
    · cases deletes
  · cases deletes
  · cases deletes

end Readings

section Framing

namespace BulkGroup

variable {ε : Type} (fromStr : String → Except ε Value) (group : BulkGroup)

/- The action line takes what the group has: nothing, or its one source line. -/
def KeepsArity : Prop := sourceLines fromStr group.action = group.source.toList.length

/- The group is left where it ends. An action line that takes no source may leave the source line to be
read as an action, where that line takes nothing in turn. -/
def InStep : Prop :=
  match group.source with
  | none => sourceLines fromStr group.action = 0
  | some source => sourceLines fromStr group.action = 1 ∨ sourceLines fromStr source = 0

def heads : Nat :=
  match group.source with
  | none => 1
  | some _ => if sourceLines fromStr group.action = 1 then 1 else 2

instance : Decidable (group.KeepsArity fromStr) := inferInstanceAs (Decidable (_ = _))

variable {fromStr group}

theorem sourceLines_or (line : String) : sourceLines fromStr line = 0 ∨ sourceLines fromStr line = 1 := by
  unfold sourceLines
  split
  · split
    · exact .inr rfl
    · exact .inl rfl
  · exact .inl rfl

theorem KeepsArity.inStep (keeps : group.KeepsArity fromStr) : group.InStep fromStr := by
  unfold InStep
  split
  · rename_i none
    rw [keeps, none]
    rfl
  · rename_i source some
    refine .inl ?_
    rw [keeps, some]
    rfl

theorem KeepsArity.heads (keeps : group.KeepsArity fromStr) : group.heads fromStr = 1 := by
  unfold BulkGroup.heads
  split
  · rfl
  · rename_i source some
    have one : sourceLines fromStr group.action = 1 := by
      rw [keeps, some]
      rfl
    exact if_pos one

theorem InStep.whole (inStep : group.InStep fromStr) (index : Nat) :
    Whole (lineArity fromStr) (group.lines.zipIdx index) := by
  unfold InStep at inStep
  obtain ⟨action, source⟩ := group
  cases source with
  | none => exact whole_singleton inStep
  | some source =>
    obtain one | bare := inStep
    · exact whole_pair one
    · obtain none | one := @sourceLines_or _ fromStr action
      · exact whole_bare_pair none bare
      · exact whole_pair one

theorem heads_frames (index : Nat) :
    (frames (lineArity fromStr) (group.lines.zipIdx index)).map Prod.fst =
      (group.lines.zipIdx index).take (group.heads fromStr) := by
  obtain ⟨action, source⟩ := group
  cases source with
  | none => simp [lines, frames_singleton, heads]
  | some source =>
    have both : (⟨action, some source⟩ : BulkGroup).lines.zipIdx index =
        [(action, index), (source, index + 1)] := rfl
    rw [both]
    obtain none | one := @sourceLines_or _ fromStr action
    · have here : frames (lineArity fromStr) [(action, index), (source, index + 1)] =
          [((action, index), []), ((source, index + 1), [])] := by
        rw [← @frames_singleton _ (lineArity fromStr) (source, index + 1)]
        exact @frames_cons _ _ _ [] _ none.symm
      simp [here, heads, none]
    · have here : frames (lineArity fromStr) [(action, index), (source, index + 1)] =
          [((action, index), [(source, index + 1)])] := by
        rw [frames, lineArity, one, List.take_one, List.drop_one]
        simp [frames]
      simp [here, heads, one]

end BulkGroup

end Framing

section Bodies

variable {ε : Type} {fromStr : String → Except ε Value}

def numbered : Nat → List BulkGroup → List (List (String × Nat))
  | _, [] => []
  | index, group :: rest => group.lines.zipIdx index :: numbered (index + group.lines.length) rest

theorem flatten_numbered (index : Nat) (groups : List BulkGroup) :
    (numbered index groups).flatten = (groups.flatMap BulkGroup.lines).zipIdx index := by
  induction groups generalizing index with
  | nil => rfl
  | cons group rest ih =>
    rw [numbered, List.flatten_cons, ih, List.flatMap_cons, List.zipIdx_append]

theorem whole_numbered {groups : List BulkGroup} (inStep : ∀ group ∈ groups.dropLast, group.InStep fromStr)
    (index : Nat) : ∀ piece ∈ (numbered index groups).dropLast, Whole (lineArity fromStr) piece := by
  induction groups generalizing index with
  | nil => exact fun piece member => nomatch member
  | cons group rest ih =>
    cases rest with
    | nil => exact fun piece member => nomatch member
    | cons next later =>
      rw [List.dropLast_cons_cons] at inStep
      intro piece member
      obtain rfl | member := List.mem_cons.mp member
      · exact (inStep group List.mem_cons_self).whole index
      · exact ih (fun other among => inStep other (List.mem_cons_of_mem _ among)) _ piece member

theorem headLines_eq (index : Nat) (groups : List BulkGroup) :
    headLines (BulkGroup.heads fromStr) index groups =
      ((numbered index groups).flatMap (frames (lineArity fromStr))).map Prod.fst := by
  induction groups generalizing index with
  | nil => rfl
  | cons group rest ih =>
    rw [headLines, numbered, List.flatMap_cons, List.map_append, ih, BulkGroup.heads_frames]

/-- When every group but the last is in step, the lines read as actions are the groups' first ones. -/
theorem actionLines_groups {groups : List BulkGroup}
    (inStep : ∀ group ∈ groups.dropLast, group.InStep fromStr) :
    actionLines fromStr (groups.flatMap BulkGroup.lines).zipIdx =
      headLines (BulkGroup.heads fromStr) 0 groups := by
  rw [actionLines_eq, headLines_eq, ← flatten_numbered, frames_flatten (whole_numbered inStep 0)]

theorem BulkGroup.heads_le (group : BulkGroup) : group.heads fromStr ≤ group.lines.length := by
  obtain ⟨action, source⟩ := group
  cases source with
  | none => simp [heads, lines]
  | some source => by_cases one : sourceLines fromStr action = 1 <;> simp [heads, lines, one]

theorem length_headLines (index : Nat) (groups : List BulkGroup) :
    (headLines (BulkGroup.heads fromStr) index groups).length =
      (groups.map (BulkGroup.heads fromStr)).sum := by
  induction groups generalizing index with
  | nil => rfl
  | cons group rest ih =>
    rw [headLines, List.length_append, ih, List.map_cons, List.sum_cons, List.length_take,
      List.length_zipIdx, Nat.min_eq_left group.heads_le]

theorem length_parseItems (lines : List (String × Nat)) :
    (parseItems fromStr lines).length = (actionLines fromStr lines).length := by
  rw [parseItems_eq, actionLines_eq, List.length_map, List.length_map]

theorem BulkGroup.InStep.parseItems_append {group : BulkGroup} (inStep : group.InStep fromStr)
    (index : Nat) (rest : List (String × Nat)) :
    parseItems fromStr (group.lines.zipIdx index ++ rest) =
      parseItems fromStr (group.lines.zipIdx index) ++ parseItems fromStr rest := by
  rw [parseItems_eq, parseItems_eq, parseItems_eq, (inStep.whole index).frames_append, List.map_append]

theorem BulkGroup.length_parseItems (group : BulkGroup) (index : Nat) :
    (parseItems fromStr (group.lines.zipIdx index)).length = group.heads fromStr := by
  have heads := congrArg List.length (@heads_frames _ fromStr group index)
  rw [List.length_map, List.length_take, List.length_zipIdx, Nat.min_eq_left group.heads_le] at heads
  rw [parseItems_eq, List.length_map, heads]

theorem BulkGroup.Denotes.first {group : BulkGroup} {operation : BulkOperation}
    (denotes : group.Denotes fromStr operation) (index : Nat) (rest : List (String × Nat)) :
    (parseItems fromStr (group.lines.zipIdx index ++ rest)).head? = some (.ok operation) := by
  obtain ⟨arity, item⟩ := BulkGroup.Denotes.read fromStr denotes
  have split : group.lines.zipIdx index ++ rest =
      (group.action, index) :: (group.source.toList.zipIdx (index + 1) ++ rest) := rfl
  have own : (group.source.toList.zipIdx (index + 1) ++ rest).take (sourceLines fromStr group.action) =
      group.source.toList.zipIdx (index + 1) := by
    rw [arity, ← List.length_zipIdx (i := index + 1), List.take_left]
  rw [split, parseItems, List.head?_cons, ← parseItem_take, own, item]

/-- Where the groups before it are in step, a group that stands for an operation gives it in its place. -/
theorem parseItems_untouched {before : List BulkGroup} {group : BulkGroup} {operation : BulkOperation}
    (inStep : ∀ other ∈ before, other.InStep fromStr) (denotes : group.Denotes fromStr operation)
    (index : Nat) (after : List BulkGroup) :
    (parseItems fromStr (((before ++ group :: after).flatMap BulkGroup.lines).zipIdx index))[
      (before.map (BulkGroup.heads fromStr)).sum]? = some (.ok operation) := by
  induction before generalizing index with
  | nil =>
    rw [List.nil_append, List.flatMap_cons, List.zipIdx_append, List.map_nil, List.sum_nil,
      ← List.head?_eq_getElem?]
    exact denotes.first index _
  | cons first rest ih =>
    have later := ih (fun other member => inStep other (List.mem_cons_of_mem _ member))
      (index + first.lines.length)
    rw [List.cons_append, List.flatMap_cons, List.zipIdx_append,
      (inStep first List.mem_cons_self).parseItems_append, List.map_cons, List.sum_cons]
    rw [← @BulkGroup.length_parseItems _ fromStr first index, List.getElem?_append_right (by omega),
      Nat.add_sub_cancel_left]
    exact later

end Bodies

section Deletes

variable {ε : Type} {fromStr : String → Except ε Value}

theorem mem_headLines {share : BulkGroup → Nat} {line : String × Nat} {index : Nat}
    {groups : List BulkGroup} (member : line ∈ headLines share index groups) :
    ∃ group ∈ groups, line.1 ∈ group.lines.take (share group) := by
  induction groups generalizing index with
  | nil => cases member
  | cons group rest ih =>
    obtain here | later := List.mem_append.mp member
    · refine ⟨group, List.mem_cons_self, ?_⟩
      have text := List.mem_map_of_mem (f := Prod.fst) here
      rwa [List.map_take, List.zipIdx_map_fst] at text
    · obtain ⟨other, among, text⟩ := ih later
      exact ⟨other, List.mem_cons_of_mem _ among, text⟩

theorem resolveBulkTarget_ok {catalog : Catalog} {index id : Option String} {resolved : String × String}
    (target : resolveBulkTarget catalog index id = .ok resolved) : id = some resolved.1 := by
  unfold resolveBulkTarget at target
  split at target
  · cases target
  · cases target
  · split at target <;> cases target
    rfl

theorem resolvedWrite_ok {catalog : Catalog} {kind other : BulkActionKind} {index id : Option String}
    {write : String → String → DocumentWriteOperation} {made : DocumentWriteOperation}
    (resolved : resolvedWrite catalog kind index id write = .ok (other, made)) :
    ∃ target name, id = some name ∧ made = write target name := by
  unfold resolvedWrite at resolved
  split at resolved
  · rename_i name target found
    cases resolved
    exact ⟨target, name, resolveBulkTarget_ok found, rfl⟩
  · cases resolved

theorem bulkSlot_delete {catalog : Catalog} {display : ε → String} {item : BulkItemParseResult ε}
    {kind : BulkActionKind} {index id : String}
    (slot : bulkSlot catalog display item = .ok (kind, .delete index id)) :
    ∃ name, item = .ok (.delete name (some id)) := by
  unfold bulkSlot at slot
  split at slot
  · rename_i operation
    cases operation with
    | delete name other =>
      obtain ⟨target, named, rfl, same⟩ := resolvedWrite_ok slot
      cases same
      exact ⟨name, rfl⟩
    | _ =>
      obtain ⟨target, named, rfl, same⟩ := resolvedWrite_ok slot
      cases same
  · cases slot

/-- A delete that a body causes stands on a line that the loop reads as an action. -/
theorem mem_bulkWrites_delete {catalog : Catalog} {display : ε → String} {lines : List (String × Nat)}
    {index id : String}
    (written : .delete index id ∈ bulkWrites catalog display (parseItems fromStr lines)) :
    ∃ line ∈ actionLines fromStr lines, ∃ entries,
      fromStr line.1 = .ok (.object [("delete", .object entries)]) ∧
      entries.lookup "_id" = some (.string id) := by
  obtain ⟨item, member, slot⟩ := List.mem_filterMap.mp written
  obtain ⟨⟨kind, made⟩, filled, rfl⟩ := Option.map_eq_some_iff.mp slot
  have slot : bulkSlot catalog display item = .ok (kind, .delete index id) := by
    cases filling : bulkSlot catalog display item with
    | error refused =>
      rw [filling] at filled
      cases filled
    | ok slot =>
      rw [filling] at filled
      exact congrArg Except.ok (Option.some.inj filled)
  obtain ⟨name, rfl⟩ := bulkSlot_delete slot
  rw [parseItems_eq] at member
  obtain ⟨frame, among, deletes⟩ := List.mem_map.mp member
  obtain ⟨entries, read, named⟩ := parseItem_delete fromStr deletes
  rw [actionLines_eq]
  exact ⟨frame.1, List.mem_map_of_mem among, entries, read, named⟩

end Deletes

section Claims

variable {ε : Type} {fromStr : String → Except ε Value}

theorem parseBulkNdjson_eq (body : DamagedBody fromStr) :
    parseBulkNdjson fromStr body.text =
      parseItems fromStr (body.damaged.flatMap BulkGroup.lines).zipIdx := by
  rw [← body.lines]
  rfl

theorem framed_of_inStep (display : ε → String) (body : DamagedBody fromStr)
    (inStep : ∀ group ∈ body.damaged.dropLast, group.InStep fromStr) :
    Framed fromStr display (BulkGroup.heads fromStr) body := by
  have actions : actionLines fromStr (bodyLines body.text).zipIdx =
      headLines (BulkGroup.heads fromStr) 0 body.damaged := by
    rw [body.lines, actionLines_groups inStep]
  refine ⟨actions, ?_, ?_, ?_⟩
  · rw [parseBulkNdjson, length_parseItems, ← length_headLines 0, ← actions]
    rfl
  · intro i group operation _ damaged denotes
    obtain ⟨inside, rfl⟩ := List.getElem?_eq_some_iff.mp damaged
    have split : body.damaged = body.damaged.take i ++ body.damaged[i] :: body.damaged.drop (i + 1) := by
      rw [← List.drop_eq_getElem_cons inside, List.take_append_drop]
    have before : ∀ other ∈ body.damaged.take i, other.InStep fromStr := by
      intro other member
      refine inStep other ?_
      rw [List.dropLast_eq_take]
      exact List.take_subset_take_left _ (by omega) member
    have found := parseItems_untouched before denotes 0 (body.damaged.drop (i + 1))
    rwa [← split, ← parseBulkNdjson_eq] at found
  · intro catalog index id written
    obtain ⟨line, read, entries, deletes, named⟩ := mem_bulkWrites_delete written
    have head : line ∈ headLines (BulkGroup.heads fromStr) 0 body.damaged := actions ▸ read
    obtain ⟨group, among, first⟩ := mem_headLines head
    exact ⟨group, among, line.1, first, entries, deletes, named⟩

theorem headLines_congr {share other : BulkGroup → Nat} {groups : List BulkGroup}
    (same : ∀ group ∈ groups, share group = other group) (index : Nat) :
    headLines share index groups = headLines other index groups := by
  induction groups generalizing index with
  | nil => rfl
  | cons group rest ih =>
    rw [headLines, headLines, same group List.mem_cons_self,
      ih fun later member => same later (List.mem_cons_of_mem _ member)]

theorem Framed.congr {display : ε → String} {share other : BulkGroup → Nat} {body : DamagedBody fromStr}
    (framed : Framed fromStr display share body)
    (same : ∀ group ∈ body.damaged, share group = other group) : Framed fromStr display other body := by
  have shares : body.damaged.map share = body.damaged.map other := List.map_congr_left same
  refine ⟨?_, ?_, ?_, ?_⟩
  · rw [framed.actions, headLines_congr same]
  · rw [framed.count, shares]
  · intro i group operation written damaged denotes
    rw [← framed.untouched i group operation written damaged denotes, List.map_take, List.map_take,
      shares]
  · intro catalog index id written
    obtain ⟨group, member, line, first, deletes⟩ := framed.deletes catalog index id written
    exact ⟨group, member, line, same group member ▸ first, deletes⟩

/-- Bulk parsing keeps its framing where the damaged action lines keep their arity: one item for each
group in order, the operation of each untouched group, and no source line read as an action. An action
line of which no name is recovered that takes a source leaves its source line to be read as an action:
where that line takes none either, the body has one item more, and the groups after it keep theirs. And
whatever the damage, an untouched group gives its operation where the groups before it are in step. -/
theorem bulk_framing (fromStr : String → Except ε Value) (display : ε → String)
    (body : DamagedBody fromStr) :
    ((∀ group ∈ body.damaged, group.source.isSome → group.KeepsArity fromStr) →
      (∀ group ∈ body.damaged.dropLast, group.KeepsArity fromStr) →
      Framed fromStr display (fun _ => 1) body) ∧
    ((∀ group ∈ body.damaged.dropLast, group.InStep fromStr) →
      Framed fromStr display (BulkGroup.heads fromStr) body) ∧
    ∀ (before after : List BulkGroup) (group : BulkGroup) (operation : BulkOperation),
      body.damaged = before ++ group :: after → (∀ other ∈ before, other.InStep fromStr) →
      group.Denotes fromStr operation →
      (parseBulkNdjson fromStr body.text)[(before.map (BulkGroup.heads fromStr)).sum]? =
        some (.ok operation) := by
  refine ⟨?_, framed_of_inStep display body, ?_⟩
  · intro sourced keeps
    have inStep := framed_of_inStep display body fun group member => (keeps group member).inStep
    refine inStep.congr fun group member => ?_
    cases source : group.source with
    | none => simp [BulkGroup.heads, source]
    | some text => exact (sourced group member (by rw [source]; rfl)).heads
  · intro before after group operation split inStep denotes
    have found := parseItems_untouched inStep denotes 0 after
    rwa [← split, ← parseBulkNdjson_eq] at found

def noteEntries (id : String) : List (String × Value) := [("_id", .string id), ("_index", .string "notes")]

def noteLine (action id : String) : String :=
  "\x7b\"" ++ action ++ "\":\x7b\"_id\":\"" ++ id ++ "\",\"_index\":\"notes\"\x7d\x7d"

def noteReader (line : String) : Except Unit Value :=
  if line = noteLine "index" "1" then .ok (.object [("index", .object (noteEntries "1"))])
  else if line = noteLine "delete" "2" then .ok (.object [("delete", .object (noteEntries "2"))])
  else if line = noteLine "delete" "3" then .ok (.object [("delete", .object (noteEntries "3"))])
  else if line = "\x7b\"index\":\x7b\"_index\":\"\"\x7d\x7d" then
    .ok (.object [("index", .object [("_index", .string "")])])
  else .error ()

theorem namesTarget_note {id : String} (nonempty : id ≠ "") :
    NamesTarget (noteEntries id) (some "notes") (some id) := by
  refine ⟨rfl, ?_, rfl, ?_⟩
  · rintro name ⟨⟩
    decide +kernel
  · rintro name ⟨⟩
    exact nonempty

theorem noteReader_deletes {id : String} (known : id = "2" ∨ id = "3") :
    noteReader (noteLine "delete" id) = .ok (.object [("delete", .object (noteEntries id))]) := by
  obtain rfl | rfl := known
  · rw [noteReader, if_neg (by decide +kernel), if_pos rfl]
  · rw [noteReader, if_neg (by decide +kernel), if_neg (by decide +kernel), if_pos rfl]

/- A note whose text is that of a delete, and the delete of another note. -/
def writtenNotes : List BulkGroup :=
  [⟨noteLine "index" "1", some (noteLine "delete" "2")⟩, ⟨noteLine "delete" "3", none⟩]

theorem formed_writtenNotes : ∀ group ∈ writtenNotes, ∃ operation, group.Denotes noteReader operation := by
  intro group member
  simp only [writtenNotes, List.mem_cons, List.not_mem_nil, or_false] at member
  obtain rfl | rfl := member
  · exact ⟨_, .sourced rfl (if_pos rfl) (namesTarget_note (by decide)) (noteReader_deletes (.inl rfl))⟩
  · exact ⟨_, .delete (noteReader_deletes (.inr rfl)) (namesTarget_note (by decide))⟩

def damagedNotes (line : String) : List BulkGroup :=
  [⟨line, some (noteLine "delete" "2")⟩, ⟨noteLine "delete" "3", none⟩]

def notesText (line : String) : String :=
  line ++ "\n" ++ noteLine "delete" "2" ++ "\n" ++ noteLine "delete" "3" ++ "\n"

def unnamedBody : DamagedBody noteReader where
  written := writtenNotes
  damaged := damagedNotes "\x7b\"index\":\x7b\"_index\":\"\"\x7d\x7d"
  text := notesText "\x7b\"index\":\x7b\"_index\":\"\"\x7d\x7d"
  formed := formed_writtenNotes
  replaced := .cons rfl (.cons rfl .nil)
  lines := by decide +kernel

/-- While its name is there, its source line is not read as an action. -/
theorem bulk_framing_unnamed : Framed noteReader (fun _ => "") (fun _ => 1) unnamedBody :=
  (bulk_framing noteReader (fun _ => "") unnamedBody).1 (by decide +kernel) (by decide +kernel)

def cutBody : DamagedBody noteReader where
  written := writtenNotes
  damaged := damagedNotes "\x7b\"index\":"
  text := notesText "\x7b\"index\":"
  formed := formed_writtenNotes
  replaced := .cons rfl (.cons rfl .nil)
  lines := by decide +kernel

/-- A note whose action line was cut short deletes the note that its text names. -/
theorem not_bulk_framing :
    ¬∀ body : DamagedBody noteReader, Framed noteReader (fun _ => "") (fun _ => 1) body := by
  intro framed
  have second : (parseBulkNdjson noteReader cutBody.text)[1]? =
      some (.ok (.delete (some "notes") (some "2"))) := by
    have bare : ∀ other ∈ [(⟨"\x7b\"index\":", none⟩ : BulkGroup)], other.InStep noteReader := by
      intro other member
      rw [List.mem_singleton.mp member]
      change sourceLines noteReader "\x7b\"index\":" = 0
      decide +kernel
    have found := parseItems_untouched bare
      (.delete (noteReader_deletes (.inl rfl)) (namesTarget_note (by decide))) 0
      [⟨noteLine "delete" "3", none⟩]
    rw [parseBulkNdjson_eq]
    exact found
  have written : .delete "notes" "2" ∈
      bulkWrites .empty (fun _ => "") (parseBulkNdjson noteReader cutBody.text) :=
    List.mem_filterMap.mpr ⟨_, List.mem_of_getElem? second, rfl⟩
  obtain ⟨group, member, line, first, entries, deletes, named⟩ :=
    (framed cutBody).deletes .empty "notes" "2" written
  simp only [cutBody, damagedNotes, List.mem_cons, List.not_mem_nil, or_false] at member
  obtain rfl | rfl := member
  · simp only [BulkGroup.lines, Option.toList_some, List.take_succ_cons, List.take_zero,
      List.mem_singleton] at first
    subst first
    have failed : noteReader "\x7b\"index\":" = .error () := by
      rw [noteReader, if_neg (by decide +kernel), if_neg (by decide +kernel), if_neg (by decide +kernel),
        if_neg (by decide +kernel)]
    rw [failed] at deletes
    cases deletes
  · simp only [BulkGroup.lines, Option.toList_none, List.take_succ_cons, List.take_nil,
      List.mem_singleton] at first
    subst first
    rw [noteReader_deletes (.inr rfl)] at deletes
    cases deletes
    have other : "3" = "2" := Value.string.inj (Option.some.inj named)
    exact absurd other (by decide)

end Claims

end Surch.Api
