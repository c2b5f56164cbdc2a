/-!
# Path expressions

A path expression addresses values inside a record: it starts at the root `$` and goes down
through fields, each of which may be followed by one array subscript.

## Main definitions

* `Selection`: which elements of an array are meant
* `Segment`: a field, how it was written, and its array subscript
* `Expression`: a text together with the segments it denotes
-/

namespace RecordCipher

/-- How a field was written. It has no influence on what the field addresses. -/
inductive Notation where
  /-- `.field` -/
  | dot
  /-- `['field']` -/
  | bracket
  deriving Repr, DecidableEq

/-- The elements an array subscript stands for. -/
inductive Selection where
  /-- `[i]`, one element. -/
  | index (i : Nat)
  /-- `[*]`, every element. -/
  | every
  deriving Repr, DecidableEq

namespace Selection

/-- Whether the element at a position is meant. -/
def selects : Selection → Nat → Bool
  | index i, j => i == j
  | every, _ => true

/-- The positions meant in an array of a given length, in increasing order. -/
def positions : Selection → Nat → List Nat
  | index i, length => if i < length then [i] else []
  | every, length => List.range length

/-- What stands between the brackets. -/
def text : Selection → String
  | index i => toString i
  | every => "*"

end Selection

/-- A field of a path, with the array subscript behind it. -/
structure Segment where
  /-- The field name, without quotes and escapes. -/
  name : String
  /-- How the field was written. -/
  written : Notation
  /-- The array subscript, if there is one. -/
  selection : Option Selection
  deriving Repr, DecidableEq

/-- The number of tasks a segment becomes. -/
def Segment.taskCount (s : Segment) : Nat :=
  1 + (if s.selection.isSome then 1 else 0)

/-- A path expression. -/
structure Expression where
  /-- The text it was read from. -/
  source : String
  /-- Its segments, from the root downwards. -/
  segments : List Segment
  deriving Repr, DecidableEq

namespace Expression

/-- Whether the expression addresses the root itself. -/
def isRoot (e : Expression) : Bool := e.segments.isEmpty

/-- The number of tasks the expression becomes. -/
def taskCount (e : Expression) : Nat :=
  e.segments.foldr (fun s count => s.taskCount + count) 0

end Expression

end RecordCipher
