import RecordCipher.Exchange.Leaf
import RecordCipher.Plan.Read
import RecordCipher.Settings.Basic

/-!
# Conditions

A condition accepts a record when some value at its field has the expected text. A record
without any value there is not accepted.

## Main definitions

* `Condition`, `Condition.compile`: a condition, ready to be evaluated
* `Condition.accepts`: whether a record is accepted
-/

namespace RecordCipher

/-- A condition on records. -/
structure Condition where
  /-- The text of the field's expression. -/
  field : String
  /-- The expected text. -/
  equals : String
  /-- The plan of the field. -/
  plan : Plan
  deriving Repr, DecidableEq

namespace Condition

/-- The condition on the field denoted by a text. -/
def compile (limits : Limits) (field equals : String) : Except ParseError Condition :=
  (Plan.compileWithin limits field).map fun plan => ⟨field, equals, plan⟩

/-- The condition of a filter. -/
def ofFilter (limits : Limits) (filter : Filter) : Except ParseError Condition :=
  compile limits filter.field filter.equals

/-- Whether a record is accepted. -/
def accepts {α : Type} [Leaf α] (c : Condition) (record : α) : Except ResolutionError Bool :=
  (c.plan.read record).map fun values =>
    values.values.any fun value => Leaf.render value == c.equals

end Condition

end RecordCipher
