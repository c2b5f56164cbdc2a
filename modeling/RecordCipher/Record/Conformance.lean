import RecordCipher.Record.Datum

/-!
# Checking values against schemas

## Main definitions

* `Mismatch`: why a value cannot stand where a schema is declared
* `Schema.validate`: the check made before a value is put into a record
-/

namespace RecordCipher

/-- Why a value cannot stand where a schema is declared. -/
inductive Mismatch where
  /-- A value of another type. -/
  | type (expected found : TypeCode)
  /-- A record of another schema than the declared one. -/
  | schema
  /-- An array item of the wrong kind. -/
  | element (i : Nat) (reason : Mismatch)
  deriving Repr, DecidableEq

/-- The text of a mismatch. -/
def Mismatch.message : Mismatch → String
  | type expected found => "expected " ++ expected.name ++ ", found " ++ found.name
  | schema => "struct schema does not match the declared schema"
  | element i reason => "element " ++ toString i ++ ": " ++ reason.message

/-- Checks array items from position `i` on, and reports the first that fails. -/
def validateItems (check : Datum → Except Mismatch Unit) : (i : Nat) → List Datum →
    Except Mismatch Unit
  | _, [] => .ok ()
  | i, item :: rest =>
    match check item with
    | .error reason => .error (.element i reason)
    | .ok () => validateItems check (i + 1) rest

/-- Checks the type of a value and the items of an array. A record has to carry the declared
schema; its own values were checked when they were put into it. -/
def Schema.validate : Schema → Datum → Except Mismatch Unit
  | .scalar type _, value =>
    if value.type = .scalar type then .ok () else .error (.type (.scalar type) value.type)
  | .array _ element, value =>
    match value with
    | .array items => validateItems (fun item => validate element item) 0 items
    | other => .error (.type .array other.type)
  | .struct traits fields, value =>
    match value with
    | .struct schema _ => if schema = .struct traits fields then .ok () else .error .schema
    | other => .error (.type .struct other.type)

end RecordCipher
