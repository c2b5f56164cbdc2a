import RecordCipher.Json.Value
import RecordCipher.Tree.Basic

/-!
# JSON values as trees

Free documents: any member can be read, set and added, and any element overwritten.
-/

namespace RecordCipher

namespace Json

/-- A member of an object. -/
def field? : Json → String → Except AccessError (Option Json)
  | object members, name => .ok (member? members name)
  | other, _ => .error (.notAnObject other.kind)

/-- Sets or adds a member of an object. -/
def setField : Json → String → Json → Outcome AccessError Json
  | object members, name, value => .ok () (object (setMember name value members))
  | other, _, _ => .error (.notAnObject other.kind) other

/-- A member of an object, in focus. -/
def focusField? : Json → String → Except AccessError (Option (Focus Json Json))
  | object members, name =>
    .ok ((member? members name).map fun value =>
      ⟨value, fun value => object (replaceMember name value members)⟩)
  | other, _ => .error (.notAnObject other.kind)

/-- The items of an array. -/
def elements? : Json → Option (List Json)
  | array items => some items
  | _ => none

/-- Overwrites an item. -/
def overwrite (i : Nat) (value : Json) : EStateM AccessError (List Json) Unit := do
  let items ← get
  if i < items.length then modify (·.set i value)
  else throw (outOfRange i items.length)

/-- Overwrites an item of an array. -/
def setElement : Json → Nat → Json → Outcome AccessError Json
  | array items, i, value => .ofPart id array (overwrite i value items)
  | other, _, _ => .error (.notAnArray other.kind) other

/-- The items of an array, in focus. -/
def focusElements? : Json → Option (Focus Json (List Json))
  | array items => some ⟨items, array⟩
  | _ => none

/-- Whether a value is `null`. -/
def isNull : Json → Bool
  | null => true
  | _ => false

end Json

instance : Tree Json where
  flavor := .generic
  kind := Json.kind
  isNull := Json.isNull
  field? := Json.field?
  setField := Json.setField
  focusField? := Json.focusField?
  elements? := Json.elements?
  setElement := Json.setElement
  focusElements? := Json.focusElements?

end RecordCipher
