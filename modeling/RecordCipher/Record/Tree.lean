import RecordCipher.Record.Basic
import RecordCipher.Tree.Basic

/-!
# Structured values as trees

Only declared fields can be read and set, and values are checked before they are set. An array
has no schema of its own: an element is overwritten only by a value of the same type, and a
record only by a record of the same schema.
-/

namespace RecordCipher

namespace Datum

/-- A field of a record. -/
def field? : Datum → String → Except AccessError (Option Datum)
  | struct schema slots, name => (Record.get ⟨schema, slots⟩ name).mapError RecordError.toAccess
  | other, _ => .error (.notAnObject other.kind)

/-- Sets a field of a record. -/
def setField : Datum → String → Datum → Outcome AccessError Datum
  | struct schema slots, name, value =>
    .ofPart RecordError.toAccess Record.toDatum (Record.put name value ⟨schema, slots⟩)
  | other, _, _ => .error (.notAnObject other.kind) other

/-- A field of a record, in focus. -/
def focusField? : Datum → String → Except AccessError (Option (Focus Datum Datum))
  | struct schema slots, name =>
    match schema.field? name with
    | none => .error (.undeclaredField name schema.fieldNames)
    | some field =>
      .ok ((Record.slot ⟨schema, slots⟩ field.position).map fun value =>
        ⟨value, fun value => struct schema (slots.set field.position (some value))⟩)
  | other, _ => .error (.notAnObject other.kind)

/-- How messages name a schema. -/
def schemaLabel (schema : Schema) : String := schema.name?.getD "<anonymous>"

/-- Checks that a value can take the place of an element. -/
def checkReplacement (current value : Datum) : Except AccessError Unit :=
  if current.type ≠ value.type then
    .error (.rejected ("array holds " ++ current.kind ++ " elements, replacement is " ++
      value.kind))
  else
    match current, value with
    | struct schema _, struct schema' _ =>
      if schema = schema' then .ok ()
      else .error (.rejected ("array holds structs of schema '" ++ schemaLabel schema ++
        "', replacement has schema '" ++ schemaLabel schema' ++ "'"))
    | _, _ => .ok ()

/-- Overwrites an item, if the value can take its place. -/
def overwrite (i : Nat) (value : Datum) : EStateM AccessError (List Datum) Unit := do
  let items ← get
  match items[i]? with
  | none => throw (outOfRange i items.length)
  | some current => do
    ofExcept (checkReplacement current value)
    modify (·.set i value)

/-- Overwrites an element of an array. -/
def setElement : Datum → Nat → Datum → Outcome AccessError Datum
  | array items, i, value => .ofPart id array (overwrite i value items)
  | other, _, _ => .error (.notAnArray other.kind) other

/-- The items of an array, in focus. -/
def focusElements? : Datum → Option (Focus Datum (List Datum))
  | array items => some ⟨items, array⟩
  | _ => none

end Datum

instance : Tree Datum where
  flavor := .structured
  kind := Datum.kind
  isNull _ := false
  field? := Datum.field?
  setField := Datum.setField
  focusField? := Datum.focusField?
  elements? := Datum.items?
  setElement := Datum.setElement
  focusElements? := Datum.focusElements?

end RecordCipher
