import RecordCipher.Data.SortedMap
import RecordCipher.Number.Binary

/-!
# JSON values

The members of an object are listed in the order of their keys, each key once, as
`Json.ofMembers` lists them; setting a member keeps them so.

## Main definitions

* `JsonNumber`: integers, kept exactly, and numbers with a fraction or an exponent
* `Json`: JSON values
* `member?`, `setMember`, `replaceMember`: access to the members of an object
-/

namespace RecordCipher

/-- A number of a JSON document: an integer, or the bits of a double precision number. -/
inductive JsonNumber where
  /-- An integer. -/
  | int (n : Int)
  /-- The bits of a number with a fraction or an exponent. -/
  | float (bits : UInt64)
  deriving Repr, DecidableEq

/-- A JSON value. -/
inductive Json where
  /-- The value `null`. -/
  | null
  /-- A truth value. -/
  | bool (b : Bool)
  /-- A number. -/
  | number (n : JsonNumber)
  /-- A text. -/
  | string (s : String)
  /-- A list of values. -/
  | array (items : List Json)
  /-- Values by their keys. -/
  | object (members : List (String × Json))
  deriving Repr, Inhabited

/-- Equality of numbers: a float equals a float as a number, and never an integer. -/
def JsonNumber.same : JsonNumber → JsonNumber → Bool
  | int n, int m => n == m
  | float a, float b => (binary64.decode a.toNat).sameNumber (binary64.decode b.toNat)
  | _, _ => false

namespace Json

/-- The object with the given members; of several members with one key the last one counts. -/
def ofMembers (members : List (String × Json)) : Json :=
  .object (SortedMap.ofList members).entries

/-- The kind of a value, as messages name it. -/
def kind : Json → String
  | null => "null"
  | bool _ => "boolean"
  | number _ => "number"
  | string _ => "string"
  | array _ => "array"
  | object _ => "object"

mutual

/-- Equality of values, where numbers are compared as numbers. -/
def same : Json → Json → Bool
  | null, null => true
  | bool a, bool b => a == b
  | number a, number b => a.same b
  | string a, string b => a == b
  | array a, array b => sameItems a b
  | object a, object b => sameMembers a b
  | _, _ => false

/-- Equality of the items of two arrays. -/
def sameItems : List Json → List Json → Bool
  | [], [] => true
  | a :: as, b :: bs => same a b && sameItems as bs
  | _, _ => false

/-- Equality of the members of two objects. -/
def sameMembers : List (String × Json) → List (String × Json) → Bool
  | [], [] => true
  | (k, a) :: as, (l, b) :: bs => k == l && same a b && sameMembers as bs
  | _, _ => false

end

end Json

/-- The value of a key. -/
def member? (members : List (String × Json)) (key : String) : Option Json :=
  match members with
  | [] => none
  | (k, v) :: rest => if k = key then some v else member? rest key

/-- The members with another value in place of that of a key they have. -/
def replaceMember (key : String) (value : Json) : List (String × Json) → List (String × Json)
  | [] => []
  | (k, v) :: rest =>
    if k = key then (k, value) :: rest else (k, v) :: replaceMember key value rest

/-- The members with a value for a key: in place of the one it has, or else where the key
belongs. -/
def setMember (key : String) (value : Json) (members : List (String × Json)) :
    List (String × Json) :=
  match member? members key with
  | some _ => replaceMember key value members
  | none => insertEntry key value members

end RecordCipher
