import RecordCipher.Location

/-!
# Failures of access to a record

## Main definitions

* `AccessError`: a node refuses an access
* `ResolutionError`: a path cannot be followed in a record, and where
* `AccessError.located`: a refusal, with the text of the location it happened at
-/

namespace RecordCipher

/-- What a step of a path needs a node to be. -/
inductive Shape where
  /-- Something with fields. -/
  | object
  /-- Something with elements. -/
  | array
  deriving Repr, DecidableEq

/-- The name of a shape. -/
def Shape.name : Shape → String
  | object => "object"
  | array => "array"

/-- How error messages list the declared fields of a record. -/
def describeDeclared (names : List String) : String :=
  if names.isEmpty then "<none>" else ", ".intercalate names

/-- A node refuses an access. -/
inductive AccessError where
  /-- A field of something that has no fields. -/
  | notAnObject (found : String)
  /-- An element of something that has no elements. -/
  | notAnArray (found : String)
  /-- A field that the schema does not declare. -/
  | undeclaredField (field : String) (declared : List String)
  /-- A value that cannot stand where it was to be put. -/
  | rejected (reason : String)
  deriving Repr, DecidableEq

/-- A path cannot be followed in a record. Every case names the location in question. -/
inductive ResolutionError where
  /-- The node there does not have the shape the next step needs. -/
  | shapeMismatch (path : String) (expected : Shape) (found : String)
  /-- The record there does not declare the field. -/
  | undeclaredField (path : String) (field : String) (declared : List String)
  /-- The selected element there is itself an array. -/
  | nestedArray (path : String)
  /-- The replacement for the value there was refused. -/
  | rejectedValue (path : String) (reason : String)
  deriving Repr, DecidableEq

namespace AccessError

/-- The text of a refusal. -/
def message : AccessError → String
  | notAnObject found => "expected object, found " ++ found
  | notAnArray found => "expected array, found " ++ found
  | undeclaredField field declared =>
    "field '" ++ field ++ "' is not declared (declared: " ++ describeDeclared declared ++ ")"
  | rejected reason => reason

/-- A refusal at a location. -/
def located (path : String) : AccessError → ResolutionError
  | notAnObject found => .shapeMismatch path .object found
  | notAnArray found => .shapeMismatch path .array found
  | undeclaredField field declared => .undeclaredField path field declared
  | rejected reason => .rejectedValue path reason

end AccessError

namespace ResolutionError

/-- The location in question. -/
def path : ResolutionError → String
  | shapeMismatch path .. | undeclaredField path .. | nestedArray path
  | rejectedValue path .. => path

/-- The text of a failure. -/
def message : ResolutionError → String
  | shapeMismatch path expected found =>
    "Path resolution failed at '" ++ path ++ "': expected " ++ expected.name ++
      ", found " ++ found
  | undeclaredField path field declared =>
    "Path resolution failed at '" ++ path ++ "': field '" ++ field ++
      "' is not declared by the record schema.\n\nDeclared fields: " ++
      describeDeclared declared
  | nestedArray path =>
    "Path resolution failed at '" ++ path ++ "': nested arrays are not supported"
  | rejectedValue path reason => "Replacement for '" ++ path ++ "' was rejected: " ++ reason

end ResolutionError

end RecordCipher
