/-!
# Schemas

A schema says which values a place of a structured record can hold.

## Main definitions

* `ScalarType`, `TypeCode`: the types of values
* `Schema`: schemas, with their traits
* `Field`: declared fields, with the positions they were given
* `Schema.field?`, `Schema.fieldAt`: looking a field up by name, and by position
* `Schema.build`: the schema of a declaration, if the declaration is consistent
-/

namespace RecordCipher

/-- The types of values without parts. -/
inductive ScalarType where
  /-- Signed integers of 8 bits. -/
  | int8
  /-- Signed integers of 16 bits. -/
  | int16
  /-- Signed integers of 32 bits. -/
  | int32
  /-- Signed integers of 64 bits. -/
  | int64
  /-- Floating-point numbers of single precision. -/
  | float32
  /-- Floating-point numbers of double precision. -/
  | float64
  /-- Truth values. -/
  | boolean
  /-- Texts. -/
  | string
  /-- Byte strings. -/
  | bytes
  deriving Repr, DecidableEq, Inhabited

/-- The types of values. -/
inductive TypeCode where
  /-- A value without parts. -/
  | scalar (type : ScalarType)
  /-- A list of values of one type. -/
  | array
  /-- A record with named fields. -/
  | struct
  deriving Repr, DecidableEq

/-- The name of a type without parts. -/
def ScalarType.name : ScalarType → String
  | int8 => "int8"
  | int16 => "int16"
  | int32 => "int32"
  | int64 => "int64"
  | float32 => "float32"
  | float64 => "float64"
  | boolean => "boolean"
  | string => "string"
  | bytes => "bytes"

namespace TypeCode

/-- The name of a type. -/
def name : TypeCode → String
  | scalar type => type.name
  | array => "array"
  | struct => "struct"

/-- Whether values of the type have no parts. -/
def isPrimitive : TypeCode → Bool
  | scalar _ => true
  | array | struct => false

end TypeCode

/-- What a schema says beside the type. -/
structure Traits where
  /-- Whether the value may be absent. -/
  optional : Bool := false
  /-- The name of the schema. -/
  name : Option String := none
  deriving Repr, DecidableEq, Inhabited

/-- A declared field, with the position it was given among the fields of its record and with a
schema of the kind `σ`. -/
structure Declared (σ : Type) where
  /-- The name of the field. -/
  name : String
  /-- Its position, as it was given when the field was declared. -/
  position : Nat
  /-- The schema of its values. -/
  schema : σ
  deriving Repr, DecidableEq, Inhabited

/-- A schema. -/
inductive Schema where
  /-- Values without parts, of one type. -/
  | scalar (type : ScalarType) (traits : Traits)
  /-- Arrays, with the schema of their elements. -/
  | array (traits : Traits) (element : Schema)
  /-- Records, with their declared fields. -/
  | struct (traits : Traits) (fields : List (Declared Schema))
  deriving Repr, Inhabited

/-- A declared field of a record. -/
abbrev Field := Declared Schema

namespace Schema

mutual

/-- Schemas are equal when all their parts are. -/
def decEq : (s t : Schema) → Decidable (s = t)
  | scalar type traits, scalar type' traits' =>
    if h : type = type' ∧ traits = traits' then isTrue (by rw [h.1, h.2])
    else isFalse (by simpa using h)
  | array traits element, array traits' element' =>
    match decEq element element' with
    | isTrue h =>
      if h' : traits = traits' then isTrue (by rw [h, h'])
      else isFalse (by simp [h'])
    | isFalse h => isFalse (by simp [h])
  | struct traits fields, struct traits' fields' =>
    match decEqFields fields fields' with
    | isTrue h =>
      if h' : traits = traits' then isTrue (by rw [h, h'])
      else isFalse (by simp [h'])
    | isFalse h => isFalse (by simp [h])
  | scalar .., array .. => isFalse (by simp)
  | scalar .., struct .. => isFalse (by simp)
  | array .., scalar .. => isFalse (by simp)
  | array .., struct .. => isFalse (by simp)
  | struct .., scalar .. => isFalse (by simp)
  | struct .., array .. => isFalse (by simp)

/-- Field lists are equal when their names, positions and schemas are. -/
def decEqFields : (fields fields' : List (Declared Schema)) → Decidable (fields = fields')
  | [], [] => isTrue rfl
  | [], _ :: _ => isFalse (by simp)
  | _ :: _, [] => isFalse (by simp)
  | ⟨name, position, schema⟩ :: rest, ⟨name', position', schema'⟩ :: rest' =>
    match decEq schema schema', decEqFields rest rest' with
    | isTrue h, isTrue h' =>
      if h'' : name = name' ∧ position = position' then isTrue (by rw [h, h', h''.1, h''.2])
      else isFalse (by simpa [h, h'] using h'')
    | isFalse h, _ => isFalse (by simp [h])
    | _, isFalse h => isFalse (by simp [h])

end

instance : DecidableEq Schema := decEq

/-- The type of the values. -/
def type : Schema → TypeCode
  | scalar type _ => .scalar type
  | array .. => .array
  | struct .. => .struct

/-- What the schema says beside the type. -/
def traits : Schema → Traits
  | scalar _ traits | array traits _ | struct traits _ => traits

/-- Whether the value may be absent. -/
def isOptional (s : Schema) : Bool := s.traits.optional

/-- The name of the schema. -/
def name? (s : Schema) : Option String := s.traits.name

/-- The declared fields; only records have any. -/
def fields : Schema → List Field
  | struct _ fields => fields
  | _ => []

/-- The names of the declared fields. -/
def fieldNames (s : Schema) : List String := s.fields.map Declared.name

/-- The first declared field of a name. -/
def field? (s : Schema) (name : String) : Option Field := s.fields.find? (·.name = name)

/-- The field declared at a position, where there is one. -/
def fieldAt (s : Schema) (position : Nat) : Field := s.fields[position]!

/-- The schema of the elements; only arrays have one. -/
def element? : Schema → Option Schema
  | array _ element => some element
  | _ => none

end Schema

/-- Why a declaration is no schema. -/
inductive SchemaError where
  /-- Fields of something that is no record. -/
  | fieldsOutsideStruct (type : TypeCode)
  /-- An array without a schema for its elements. -/
  | missingElement
  /-- Two fields of one name. -/
  | duplicateField (name : String)
  deriving Repr, DecidableEq

/-- The text of a refusal. -/
def SchemaError.message : SchemaError → String
  | fieldsOutsideStruct type => type.name ++ " schema cannot declare fields"
  | missingElement => "array schema requires an element schema"
  | duplicateField name => "duplicate field '" ++ name ++ "'"

/-- The first name that occurs again, in the order of the second occurrences. -/
def firstRepeated (seen : List String) : List String → Option String
  | [] => none
  | name :: rest => if name ∈ seen then some name else firstRepeated (seen ++ [name]) rest

/-- The fields with one more declared behind them. Its position is the number of those before. -/
def declareField (fields : List Field) (name : String) (schema : Schema) : List Field :=
  fields ++ [⟨name, fields.length, schema⟩]

/-- The fields that are declared one after another. -/
def declareFields (declarations : List (String × Schema)) : List Field :=
  declarations.foldl (fun fields (name, schema) => declareField fields name schema) []

/-- The schema of a declaration. Only records declare fields, each name once, and arrays need
a schema for their elements. -/
def Schema.build (type : TypeCode) (traits : Traits) (declarations : List (String × Schema))
    (element : Option Schema) : Except SchemaError Schema :=
  let fields := declareFields declarations
  match type with
  | .scalar t =>
    if fields.isEmpty then .ok (.scalar t traits) else .error (.fieldsOutsideStruct type)
  | .array =>
    if fields.isEmpty then
      match element with
      | some element => .ok (.array traits element)
      | none => .error .missingElement
    else .error (.fieldsOutsideStruct type)
  | .struct =>
    match firstRepeated [] (fields.map Declared.name) with
    | some name => .error (.duplicateField name)
    | none => .ok (.struct traits fields)

end RecordCipher
