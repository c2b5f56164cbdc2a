import RecordCipher.Data.SortedMap

/-!
# Locations in a record

A location is the concrete way from the root of a record to one of its nodes: the fields and
array elements passed through, without wildcards. Its text is what values read from a record
are filed under and what replacements are looked up by. Field names enter the text as they
are, without quotes or escapes.

## Main definitions

* `Location.Step`, `Location`: the ways down from the root
* `Location.text`: the text of a location
* `PathMap`: values filed under the texts of locations
-/

namespace RecordCipher

/-- One step down: into a field or to an array element. -/
inductive Location.Step where
  /-- Into the field of a name. -/
  | field (name : String)
  /-- To the element at a position. -/
  | index (i : Nat)
  deriving Repr, DecidableEq

/-- The steps from the root of a record to a node. -/
abbrev Location := List Location.Step

namespace Location

/-- The root of a record. -/
def root : Location := []

/-- The location of a field. -/
def field (parent : Location) (name : String) : Location := parent ++ [.field name]

/-- The location of an array element. -/
def index (parent : Location) (i : Nat) : Location := parent ++ [.index i]

/-- What a step adds to the text of a location. -/
def Step.text : Step → String
  | .field name => "." ++ name
  | .index i => "[" ++ toString i ++ "]"

/-- The text of a location: `$` for the root, `.name` for a field and `[i]` for an element. -/
def text (location : Location) : String :=
  "$" ++ String.join (location.map Step.text)

end Location

/-- Values filed under the texts of locations, in the order of these texts. -/
abbrev PathMap (α : Type) := SortedMap String α

end RecordCipher
