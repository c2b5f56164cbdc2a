import RecordCipher.Number.Shortest
import RecordCipher.Schema.Basic
import RecordCipher.Text.Utf8

/-!
# Values of structured records

## Main definitions

* `Scalar`: values without parts
* `Datum`: values of structured records
* `Datum.same`: equality, where floating-point numbers are compared as numbers
* `Datum.display`: the text of a value
-/

namespace RecordCipher

/-- A value without parts; floating-point numbers are kept as bits. -/
inductive Scalar where
  /-- A signed integer of 8 bits. -/
  | int8 (n : Int8)
  /-- A signed integer of 16 bits. -/
  | int16 (n : Int16)
  /-- A signed integer of 32 bits. -/
  | int32 (n : Int32)
  /-- A signed integer of 64 bits. -/
  | int64 (n : Int64)
  /-- The bits of a floating-point number of single precision. -/
  | float32 (bits : UInt32)
  /-- The bits of a floating-point number of double precision. -/
  | float64 (bits : UInt64)
  /-- A truth value. -/
  | boolean (b : Bool)
  /-- A text. -/
  | string (s : String)
  /-- A byte string. -/
  | bytes (raw : Bytes)
  deriving DecidableEq, Inhabited

namespace Scalar

/-- The type of a value. -/
def type : Scalar → ScalarType
  | int8 _ => .int8
  | int16 _ => .int16
  | int32 _ => .int32
  | int64 _ => .int64
  | float32 _ => .float32
  | float64 _ => .float64
  | boolean _ => .boolean
  | string _ => .string
  | bytes _ => .bytes

/-- The text of a value. -/
def display : Scalar → String
  | int8 n => toString n.toInt
  | int16 n => toString n.toInt
  | int32 n => toString n.toInt
  | int64 n => toString n.toInt
  | float32 bits => binary32.display bits.toNat
  | float64 bits => binary64.display bits.toNat
  | boolean b => if b then "true" else "false"
  | string s => s
  | bytes raw => "[" ++ ", ".intercalate (raw.map fun b => toString b.toNat) ++ "]"

/-- Equality of values, where floating-point numbers are compared as numbers. -/
def same : Scalar → Scalar → Bool
  | float32 a, float32 b => (binary32.decode a.toNat).sameNumber (binary32.decode b.toNat)
  | float64 a, float64 b => (binary64.decode a.toNat).sameNumber (binary64.decode b.toNat)
  | a, b => decide (a = b)

end Scalar

/-- A value of a structured record. A record has one slot for each field its schema declares. -/
inductive Datum where
  /-- A value without parts. -/
  | scalar (value : Scalar)
  /-- A list of values. -/
  | array (items : List Datum)
  /-- A record. -/
  | struct (schema : Schema) (slots : List (Option Datum))
  deriving Inhabited

namespace Datum

/-- The type of a value. -/
def type : Datum → TypeCode
  | scalar value => .scalar value.type
  | array _ => .array
  | struct .. => .struct

/-- The kind of a value, as messages name it. -/
def kind (d : Datum) : String := d.type.name

/-- The text of a string value. -/
def string? : Datum → Option String
  | scalar (.string s) => some s
  | _ => none

/-- The bytes of a byte string value. -/
def bytes? : Datum → Option Bytes
  | scalar (.bytes raw) => some raw
  | _ => none

/-- The items of an array. -/
def items? : Datum → Option (List Datum)
  | array items => some items
  | _ => none

mutual

/-- Equality of values: records are equal when their schemas and all their slots are, and
floating-point numbers are compared as numbers. -/
def same : Datum → Datum → Bool
  | scalar a, scalar b => a.same b
  | array as, array bs => sameItems as bs
  | struct s as, struct t bs => decide (s = t) && sameSlots as bs
  | _, _ => false

/-- Equality of the items of two arrays. -/
def sameItems : List Datum → List Datum → Bool
  | [], [] => true
  | a :: as, b :: bs => same a b && sameItems as bs
  | _, _ => false

/-- Equality of the slots of two records. -/
def sameSlots : List (Option Datum) → List (Option Datum) → Bool
  | [], [] => true
  | none :: as, none :: bs => sameSlots as bs
  | some a :: as, some b :: bs => same a b && sameSlots as bs
  | _, _ => false

end

mutual

/-- The text of a value. -/
def display : Datum → String
  | scalar value => value.display
  | array items => "[" ++ ", ".intercalate (displayItems items) ++ "]"
  | struct schema slots =>
    "Struct\x7b" ++ ",".intercalate (displaySlots schema.fieldNames slots) ++ "\x7d"

/-- The texts of the items of an array. -/
def displayItems : List Datum → List String
  | [] => []
  | item :: rest => display item :: displayItems rest

/-- The texts of the set slots of a record, with the names of their fields. -/
def displaySlots : List String → List (Option Datum) → List String
  | name :: names, some value :: rest =>
    (name ++ "=" ++ display value) :: displaySlots names rest
  | _ :: names, none :: rest => displaySlots names rest
  | _, _ => []

end

end Datum

end RecordCipher
