import RecordCipher.Data.Change
import RecordCipher.Record.Conformance
import RecordCipher.Tree.Access

/-!
# Structured records

A record holds a value or nothing for every field its schema declares. The name of a field leads to
the position that the field was given when it was declared; there are its schema and its slot.
Values are checked against the schema of their field before they are put, and only optional fields
can be cleared.

## Main definitions

* `Record`, `Record.create`: records, and the empty record of a schema
* `Record.get`: the value of a field
* `Record.put`, `Record.clear`: changes of a record in place
* `Record.validate`: whether all required fields are set
* `RecordError`: why an operation fails
-/

namespace RecordCipher

/-- Why an operation on a record fails. -/
inductive RecordError where
  /-- A record of a schema that is not that of a record. -/
  | notAStruct (found : String)
  /-- A field that the schema does not declare. -/
  | unknownField (field : String) (declared : List String)
  /-- A value that the schema of its field does not admit. -/
  | typeMismatch (field : String) (reason : String)
  /-- A required field without a value. -/
  | missingRequiredField (field : String)
  /-- A declaration that is no schema. -/
  | invalidSchema (reason : String)
  deriving Repr, DecidableEq

namespace RecordError

/-- The text of a failure. -/
def message : RecordError → String
  | notAStruct found => "Expected a struct, found " ++ found
  | unknownField field declared =>
    "Unknown field '" ++ field ++ "' (declared fields: " ++ describeDeclared declared ++ ")"
  | typeMismatch field reason => "Invalid value for field '" ++ field ++ "': " ++ reason
  | missingRequiredField field => "Missing required field '" ++ field ++ "'"
  | invalidSchema reason => "Invalid schema: " ++ reason

/-- The refusal of access that a failure amounts to. -/
def toAccess : RecordError → AccessError
  | unknownField field declared => .undeclaredField field declared
  | notAStruct found => .notAnObject found
  | other => .rejected other.message

end RecordError

/-- A structured record: a schema, and one slot for each field it declares. -/
structure Record where
  /-- The schema. -/
  schema : Schema
  /-- The values of the fields that are set, in the order of their declaration. -/
  slots : List (Option Datum)
  deriving Inhabited

namespace Record

/-- The record as a value. -/
def toDatum (r : Record) : Datum := .struct r.schema r.slots

/-- The record that a value is. -/
def ofDatum? : Datum → Option Record
  | .struct schema slots => some ⟨schema, slots⟩
  | _ => none

/-- The empty record of a schema. -/
def create (schema : Schema) : Except RecordError Record :=
  match schema with
  | .struct _ fields => .ok ⟨schema, List.replicate fields.length none⟩
  | other => .error (.notAStruct other.type.name)

/-- The declared field of a name. -/
def fieldNamed (r : Record) (name : String) : Except RecordError Field :=
  match r.schema.field? name with
  | some field => .ok field
  | none => .error (.unknownField name r.schema.fieldNames)

/-- What is in a slot. -/
def slot (r : Record) (position : Nat) : Option Datum := r.slots[position]?.join

/-- The record with a slot filled or emptied. -/
def setSlot (r : Record) (position : Nat) (value : Option Datum) : Record :=
  { r with slots := r.slots.set position value }

/-- The value of a field, if it is set. -/
def get (r : Record) (name : String) : Except RecordError (Option Datum) := do
  let field ← r.fieldNamed name
  return r.slot field.position

/-- Puts a value into a field, if the schema of the field admits it. -/
def put (name : String) (value : Datum) : EStateM RecordError Record Unit := do
  let field ← ofExcept ((← MonadState.get).fieldNamed name)
  match ((← MonadState.get).schema.fieldAt field.position).schema.validate value with
  | .error reason => throw (.typeMismatch name reason.message)
  | .ok () => modify (·.setSlot field.position (some value))

/-- Clears a field, if it is optional. -/
def clear (name : String) : EStateM RecordError Record Unit := do
  let field ← ofExcept ((← MonadState.get).fieldNamed name)
  if ((← MonadState.get).schema.fieldAt field.position).schema.isOptional then
    modify (·.setSlot field.position none)
  else throw (.missingRequiredField name)

/-- The record with another value in place of that of a field which is set; nothing is
checked. -/
def replace (r : Record) (name : String) (value : Datum) : Except RecordError Record := do
  let field ← r.fieldNamed name
  match r.slot field.position with
  | some _ => return r.setSlot field.position (some value)
  | none => return r

mutual

/-- Checks that the required fields among some slots are set, and the records in them. -/
def checkSlots : List Field → List (Option Datum) → Except RecordError Unit
  | field :: fields, none :: slots =>
    if field.schema.isOptional then checkSlots fields slots
    else .error (.missingRequiredField field.name)
  | _ :: fields, some value :: slots => do
    checkValue value
    checkSlots fields slots
  | _, _ => .ok ()

/-- Checks the records in a value: the value itself or the items of an array. -/
def checkValue : Datum → Except RecordError Unit
  | .scalar _ => .ok ()
  | .array items => checkItems items
  | .struct schema slots => checkSlots schema.fields slots

/-- Checks the records among array items. -/
def checkItems : List Datum → Except RecordError Unit
  | [] => .ok ()
  | .struct schema slots :: rest => do
    checkSlots schema.fields slots
    checkItems rest
  | _ :: rest => checkItems rest

end

/-- Checks that every required field is set, in the record and in the records it holds. -/
def validate (r : Record) : Except RecordError Unit :=
  checkSlots r.schema.fields r.slots

/-- The text of a record: its set fields in the order they are declared. -/
def display (r : Record) : String := r.toDatum.display

end Record

end RecordCipher
