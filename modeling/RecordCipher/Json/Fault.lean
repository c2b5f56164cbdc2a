import RecordCipher.Json.Value
import RecordCipher.Number.Shortest
import RecordCipher.Text.Quote

/-!
# Faults of JSON documents

A document is refused because it ends too early, because it is malformed, or because it does
not hold what was asked for.

## Main definitions

* `Found`: what was found in place of what was asked for
* `DataFault`: why a document does not hold what was asked for
* `JsonFault`: why a document is refused
-/

namespace RecordCipher

/-- What was found in place of what was asked for. -/
inductive Found where
  /-- The value `null`. -/
  | null
  /-- A truth value. -/
  | boolean (b : Bool)
  /-- An integer. -/
  | integer (n : Int)
  /-- A number with a fraction or an exponent. -/
  | float (bits : Nat)
  /-- A text. -/
  | string (s : String)
  /-- An array. -/
  | sequence
  /-- An object. -/
  | map
  deriving Repr, DecidableEq

namespace Found

/-- What a value counts as. -/
def ofJson : Json → Found
  | .null => null
  | .bool b => boolean b
  | .number (.int n) => integer n
  | .number (.float bits) => float bits.toNat
  | .string s => string s
  | .array _ => sequence
  | .object _ => map

/-- How messages name what was found. -/
def describe : Found → String
  | null => "null"
  | boolean b => if b then "boolean `true`" else "boolean `false`"
  | integer n => "integer `" ++ toString n ++ "`"
  | float bits => "floating point `" ++ binary64.render bits ++ "`"
  | string s => "string " ++ quoteForMessage s
  | sequence => "sequence"
  | map => "map"

end Found

/-- How messages list the names that are known. -/
def describeOneOf (names : List String) : String :=
  match names.map fun name => "`" ++ name ++ "`" with
  | [] => "there are no names"
  | [name] => name
  | [first, second] => first ++ " or " ++ second
  | names => "one of " ++ ", ".intercalate names

/-- Why a document does not hold what was asked for. -/
inductive DataFault where
  /-- A member that cannot be left out is missing. -/
  | missingField (name : String)
  /-- A member comes twice. -/
  | duplicateField (name : String)
  /-- A member of a name that is not known. -/
  | unknownField (name : String) (known : List String)
  /-- A name that stands for none of the choices. -/
  | unknownVariant (name : String) (known : List String)
  /-- A value of another type. -/
  | invalidType (found : Found) (expected : String)
  /-- A value of the right type that is out of range. -/
  | invalidValue (found : Found) (expected : String)
  /-- An array with too few or too many elements. -/
  | invalidLength (length : Nat) (expected : String)
  deriving Repr, DecidableEq

/-- The text of a fault. -/
def DataFault.message : DataFault → String
  | missingField name => "missing field `" ++ name ++ "`"
  | duplicateField name => "duplicate field `" ++ name ++ "`"
  | unknownField name known => "unknown field `" ++ name ++ "`, expected " ++ describeOneOf known
  | unknownVariant name known =>
    "unknown variant `" ++ name ++ "`, expected " ++ describeOneOf known
  | invalidType found expected =>
    "invalid type: " ++ found.describe ++ ", expected " ++ expected
  | invalidValue found expected =>
    "invalid value: " ++ found.describe ++ ", expected " ++ expected
  | invalidLength length expected =>
    "invalid length " ++ toString length ++ ", expected " ++ expected

/-- Why a document is refused. -/
inductive JsonFault where
  /-- The text ends too early. -/
  | ending
  /-- The text is malformed. -/
  | malformed
  /-- The document does not hold what was asked for. -/
  | data (fault : DataFault)
  deriving Repr, DecidableEq

end RecordCipher
