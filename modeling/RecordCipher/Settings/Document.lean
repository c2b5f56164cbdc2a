import RecordCipher.Json.Reader
import RecordCipher.Settings.Basic

/-!
# Settings as JSON documents

A structure is written as an object with its members in any order, or as an array of its
members in the order of their declaration. One description of the members serves both.

## Main definitions

* `Member`, `Layout`: the members of a structure, and how they are read
* `Layout.read`: a structure written either way
* `Settings.parse`: the settings of a document
* `Limits.ofJson`, `Encoding.ofJson`: limits and encodings held by a JSON value
-/

namespace RecordCipher

/-- A member of a structure that is read into a draft. -/
structure Member (σ : Type) where
  /-- The key of the member. -/
  name : String
  /-- Whether it can be left out. -/
  optional : Bool
  /-- Whether it was read before. -/
  isSet : σ → Bool
  /-- Reads its value. -/
  read : σ → Reader σ

/-- The members of a structure in the order of their declaration. -/
structure Layout (σ : Type) where
  /-- How messages name the structure. -/
  title : String
  /-- Its members. -/
  members : List (Member σ)
  /-- Whether other keys are refused rather than read over. -/
  strict : Bool

namespace Layout

variable {σ : Type} (layout : Layout σ)

/-- Reads the value of a key. Keys that are unknown or come twice are refused before anything
behind them is looked at. -/
def readMember (key : String) (draft : σ) : Reader σ := do
  match layout.members.find? fun member => member.name == key with
  | some member =>
    if member.isSet draft then Reader.refuse (.duplicateField key)
    else
      Reader.colon
      member.read draft
  | none =>
    if layout.strict then
      Reader.refuse (.unknownField key (layout.members.map Member.name))
    else
      Reader.colon
      Reader.skip
      return draft

/-- Reads the members of an object, of which there are fewer than the fuel. -/
def readMembers : (fuel : Nat) → (isFirst : Bool) → σ → Reader σ
  | 0, _, _ => Reader.fail .ending
  | fuel + 1, isFirst, draft => do
    match ← Reader.nextKey isFirst with
    | none => return draft
    | some key =>
      let draft ← layout.readMember key draft
      readMembers fuel false draft

/-- Checks that no member is missing that cannot be left out. -/
def checkMembers (draft : σ) : Reader Unit :=
  match layout.members.find? fun member => !member.optional && !member.isSet draft with
  | some member => Reader.refuse (.missingField member.name)
  | none => return

/-- Reads the elements of an array as members; `position` of them were read before. Members
behind the last element are left out. -/
def readElements : (position : Nat) → List (Member σ) → σ → Reader σ
  | _, [], draft => return draft
  | position, member :: rest, draft => do
    if ← Reader.nextElement (position == 0) then
      let draft ← member.read draft
      readElements (position + 1) rest draft
    else if member.optional then
      return draft
    else
      Reader.refuse (.invalidLength position
        (layout.title ++ " with " ++ toString layout.members.length ++ " elements"))

/-- Reads a structure, starting from an empty draft. -/
def read (draft : σ) : Reader σ := do
  match ← Reader.peekValue with
  | '[' =>
    Reader.eat
    let draft ← layout.readElements 0 layout.members draft
    Reader.closeArray
    return draft
  | '\x7b' =>
    Reader.eat
    let chars ← get
    let draft ← layout.readMembers (chars.length + 1) true draft
    Reader.eat
    layout.checkMembers draft
    return draft
  | _ => Reader.wrongType layout.title

end Layout

/-- The values of an enumeration by their names. -/
abbrev Choices (β : Type) := List (String × β)

/-- The value of a name. -/
def Choices.choose {β : Type} (choices : Choices β) (name : String) : Except DataFault β :=
  match choices.lookup name with
  | some value => .ok value
  | none => .error (.unknownVariant name (choices.map (·.1)))

namespace Reader

/-- The elements of an array of strings, of which there are fewer than the fuel. -/
def stringElements : (fuel : Nat) → (isFirst : Bool) → Reader (List String)
  | 0, _ => fail .ending
  | fuel + 1, isFirst => do
    if ← nextElement isFirst then
      let item ← string "a string"
      let others ← stringElements fuel false
      return item :: others
    else return []

/-- An array of strings. -/
def strings : Reader (List String) := do
  match ← peekValue with
  | '[' =>
    eat
    let chars ← get
    let items ← stringElements (chars.length + 1) true
    closeArray
    return items
  | _ => wrongType "a sequence"

/-- The value of a name that is read. -/
def choose {β : Type} (choices : Choices β) (name : String) : Reader β :=
  match choices.choose name with
  | .ok value => return value
  | .error fault => refuse fault

/-- A value of an enumeration: its name, or an object with its name as the only key and
`null` as its value. -/
def choice {β : Type} (choices : Choices β) : Reader β := do
  match ← peekValue with
  | '"' =>
    eat
    choose choices (← stringBody)
  | '\x7b' =>
    eat
    match ← peek with
    | none => fail .ending
    | some '"' =>
      eat
      let value ← choose choices (← stringBody)
      colon
      unit
      match ← peek with
      | some '\x7d' => eat; return value
      | some _ => fail .malformed
      | none => fail .ending
    | some _ => fail .malformed
  | _ => fail .malformed

end Reader

/-- The modes by their names. -/
def modeChoices : Choices Mode := [("encrypt", .encrypt), ("decrypt", .decrypt)]

/-- The encodings by their names. -/
def encodingChoices : Choices Encoding := [("string", .string), ("binary", .binary)]

/-- A filter of which some members were read. -/
structure FilterDraft where
  /-- The expression of the field. -/
  field : Option String := none
  /-- The text of the value. -/
  equals : Option String := none

/-- How filters are written. -/
def filterLayout : Layout FilterDraft where
  title := "struct ConditionConfig"
  strict := true
  members :=
    [{ name := "field", optional := false, isSet := (·.field.isSome)
       read := fun draft => do return { draft with field := some (← Reader.string "a string") } },
     { name := "equals", optional := false, isSet := (·.equals.isSome)
       read := fun draft => do return { draft with equals := some (← Reader.string "a string") } }]

/-- Limits of which some members were read. -/
structure LimitsDraft where
  /-- The greatest length of the text. -/
  maxLength : Option Nat := none
  /-- The greatest number of tasks. -/
  maxTasks : Option Nat := none

/-- The limits that a draft stands for. -/
def LimitsDraft.finish (draft : LimitsDraft) : Limits :=
  let usual : Limits := {}
  ⟨draft.maxLength.getD usual.maxLength, draft.maxTasks.getD usual.maxTasks⟩

/-- How limits are written. -/
def limitsLayout : Layout LimitsDraft where
  title := "struct PathLimits"
  strict := false
  members :=
    [{ name := "max_expression_len", optional := true, isSet := (·.maxLength.isSome)
       read := fun draft => do return { draft with maxLength := some (← Reader.word) } },
     { name := "max_tasks", optional := true, isSet := (·.maxTasks.isSome)
       read := fun draft => do return { draft with maxTasks := some (← Reader.word) } }]

/-- A filter. -/
def Reader.filter : Reader Filter := do
  let draft ← filterLayout.read {}
  return ⟨draft.field.getD "", draft.equals.getD ""⟩

/-- Limits. -/
def Reader.limits : Reader Limits := do
  let draft ← limitsLayout.read {}
  return draft.finish

/-- Settings of which some members were read. -/
structure SettingsDraft where
  /-- The expressions of the fields. -/
  fields : Option (List String) := none
  /-- The direction. -/
  mode : Option Mode := none
  /-- How items are put back. -/
  encoding : Option Encoding := none
  /-- Which records are meant. -/
  filter : Option (Option Filter) := none
  /-- The limits on expressions. -/
  limits : Option (Option Limits) := none
  /-- The number of worker threads. -/
  threads : Option (Option Nat) := none

/-- The settings that a complete draft stands for. -/
def SettingsDraft.finish (draft : SettingsDraft) : Settings where
  fields := draft.fields.getD []
  mode := draft.mode.getD .encrypt
  encoding := draft.encoding.getD .string
  filter := draft.filter.getD none
  limits := draft.limits.getD none
  threads := draft.threads.getD none

/-- How settings are written. -/
def settingsLayout : Layout SettingsDraft where
  title := "struct TransformConfig"
  strict := true
  members :=
    [{ name := "fields", optional := false, isSet := (·.fields.isSome)
       read := fun draft => do return { draft with fields := some (← Reader.strings) } },
     { name := "mode", optional := false, isSet := (·.mode.isSome)
       read := fun draft => do return { draft with mode := some (← Reader.choice modeChoices) } },
     { name := "output_encoding", optional := true, isSet := (·.encoding.isSome)
       read := fun draft => do
         return { draft with encoding := some (← Reader.choice encodingChoices) } },
     { name := "condition", optional := true, isSet := (·.filter.isSome)
       read := fun draft => do
         return { draft with filter := some (← Reader.optional Reader.filter) } },
     { name := "limits", optional := true, isSet := (·.limits.isSome)
       read := fun draft => do
         return { draft with limits := some (← Reader.optional Reader.limits) } },
     { name := "threads", optional := true, isSet := (·.threads.isSome)
       read := fun draft => do
         return { draft with threads := some (← Reader.optional Reader.word) } }]

/-- A whole document of settings. -/
def Reader.settings : Reader Settings := do
  let draft ← settingsLayout.read {}
  finish
  return draft.finish

/-- The settings of a document. -/
def Settings.parse (document : String) : Except JsonFault Settings :=
  (Reader.settings document.toList).map (·.1)

/-- A natural number below `2 ^ 64` held by a JSON value. -/
def wordOfJson : Json → Except DataFault Nat
  | .number (.int n) =>
    if 0 ≤ n then .ok n.toNat else .error (.invalidValue (.integer n) "usize")
  | other => .error (.invalidType (Found.ofJson other) "usize")

namespace Limits

/-- The limits held by the members of an object, in the order of the members. -/
def ofMembers (limits : Limits) : List (String × Json) → Except DataFault Limits
  | [] => .ok limits
  | (key, value) :: rest =>
    if key = "max_expression_len" then do
      let n ← wordOfJson value
      ofMembers { limits with maxLength := n } rest
    else if key = "max_tasks" then do
      let n ← wordOfJson value
      ofMembers { limits with maxTasks := n } rest
    else ofMembers limits rest

/-- The limits held by a JSON value: members or elements that are missing take the usual
limits, and members of other names are ignored. -/
def ofJson : Json → Except DataFault Limits
  | .object members => ofMembers {} members
  | .array [] => .ok {}
  | .array [length] => do
    let length ← wordOfJson length
    return { maxLength := length }
  | .array (length :: tasks :: more) => do
    let length ← wordOfJson length
    let tasks ← wordOfJson tasks
    if more.isEmpty then return ⟨length, tasks⟩
    else throw (.invalidLength (more.length + 2) "fewer elements in array")
  | other => .error (.invalidType (Found.ofJson other) "struct PathLimits")

end Limits

/-- The encoding named by a JSON value. -/
def Encoding.ofJson : Json → Except DataFault Encoding
  | .string name => encodingChoices.choose name
  | .object [(name, value)] => do
    let encoding ← encodingChoices.choose name
    match value with
    | .null => return encoding
    | other => throw (.invalidType (Found.ofJson other) "unit")
  | .object _ => .error (.invalidValue .map "map with a single key")
  | other => .error (.invalidType (Found.ofJson other) "string or map")

end RecordCipher
