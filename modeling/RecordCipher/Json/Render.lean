import RecordCipher.Json.Value
import RecordCipher.Number.Shortest
import RecordCipher.Text.Quote

/-!
# The compact text of a JSON value

## Main definitions

* `Json.render`: the text of a value, without blanks
-/

namespace RecordCipher

/-- The text of a number. -/
def JsonNumber.render : JsonNumber → String
  | int n => toString n
  | float bits => binary64.render bits.toNat

namespace Json

mutual

/-- The text of a value, without blanks. -/
def render : Json → String
  | null => "null"
  | bool b => if b then "true" else "false"
  | number n => n.render
  | string s => jsonString s
  | array items => "[" ++ ",".intercalate (renderItems items) ++ "]"
  | object members => "\x7b" ++ ",".intercalate (renderMembers members) ++ "\x7d"

/-- The texts of the items of an array. -/
def renderItems : List Json → List String
  | [] => []
  | item :: rest => render item :: renderItems rest

/-- The texts of the members of an object. -/
def renderMembers : List (String × Json) → List String
  | [] => []
  | (key, value) :: rest => (jsonString key ++ ":" ++ render value) :: renderMembers rest

end

end Json

end RecordCipher
