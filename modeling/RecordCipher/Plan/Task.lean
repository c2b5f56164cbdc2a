import RecordCipher.Expression.Parser
import RecordCipher.Tree.Basic

/-!
# Plans

A plan is what remains of an expression when it is followed: a list of tasks, each of which
goes one level down in a record.

## Main definitions

* `Task`: going into a field, or to the elements of an array
* `Plan`, `Expression.plan`: the tasks of an expression, with its text
-/

namespace RecordCipher

/-- Going one level down. -/
inductive Task where
  /-- Into the field of a name. -/
  | field (name : String)
  /-- To the selected elements. -/
  | elements (selection : Selection)
  deriving Repr, DecidableEq

/-- The text of a task. -/
def Task.display : Task → String
  | field name => "object(" ++ name ++ ")"
  | elements selection => "array(" ++ selection.text ++ ")"

/-- The tasks of a segment: its field, and then its elements if it has a selection. -/
def Segment.tasks (s : Segment) : List Task :=
  .field s.name :: (s.selection.map Task.elements).toList

/-- The tasks of an expression, with its text. -/
structure Plan where
  /-- The text of the expression. -/
  expression : String
  /-- The tasks, from the root downwards. -/
  tasks : List Task
  deriving Repr, DecidableEq

namespace Expression

/-- The tasks of an expression. -/
def tasks (e : Expression) : List Task := e.segments.flatMap Segment.tasks

/-- The plan of an expression. -/
def plan (e : Expression) : Plan := ⟨e.source, e.tasks⟩

end Expression

/-- The plan of the expression denoted by a text within limits. -/
def Plan.compileWithin (limits : Limits) (text : String) : Except ParseError Plan :=
  (Expression.parseWithin limits text).map Expression.plan

end RecordCipher
