import RecordCipher.Expression.Syntax
import RecordCipher.Text.Class

/-!
# The canonical text of a path expression

## Main definitions

* `escapeName`: a field name inside single quotes
* `Segment.canonical`, `Expression.canonical`: the canonical texts
-/

namespace RecordCipher

/-- A field name inside single quotes: backslashes and single quotes are escaped. -/
def escapeName (name : String) : String :=
  String.ofList (name.toList.flatMap fun c => if c = '\\' ∨ c = '\'' then ['\\', c] else [c])

namespace Segment

/-- A field as it is written canonically: bare when its name allows it, quoted otherwise. -/
def canonicalField (s : Segment) : String :=
  if isIdentifier s.name then "." ++ s.name else "['" ++ escapeName s.name ++ "']"

/-- A segment as it is written canonically. -/
def canonical (s : Segment) : String :=
  s.canonicalField ++
    (match s.selection with
      | some selection => "[" ++ selection.text ++ "]"
      | none => "")

end Segment

/-- The canonical text of an expression, which reads back to the same names and selections. -/
def Expression.canonical (e : Expression) : String :=
  "$" ++ String.join (e.segments.map Segment.canonical)

end RecordCipher
