/-!
# Limits on path expressions

## Main definitions

* `Limits`: how long an expression may be and how many tasks it may become
* `Limits.hardMaximum`: the limits nobody may exceed
* `Limits.validate`: whether limits stay below the hard maximum
-/

namespace RecordCipher

/-- Bounds on a path expression. -/
structure Limits where
  /-- The greatest length of the text, in bytes. -/
  maxLength : Nat := 1024
  /-- The greatest number of tasks. -/
  maxTasks : Nat := 32
  deriving Repr, DecidableEq

/-- Which bound exceeds its hard maximum. -/
inductive LimitsReason where
  /-- The length of the text. -/
  | length (value limit : Nat)
  /-- The number of tasks. -/
  | tasks (value limit : Nat)
  deriving Repr, DecidableEq

/-- The text of a reason. -/
def LimitsReason.message : LimitsReason → String
  | length value limit => s!"max_expression_len {value} exceeds hard limit {limit}"
  | tasks value limit => s!"max_tasks {value} exceeds hard limit {limit}"

/-- Limits that exceed the hard maximum. -/
structure LimitsError where
  /-- The bound that exceeds its hard maximum. -/
  reason : LimitsReason
  /-- The limits nobody may exceed. -/
  hard : Limits
  deriving Repr, DecidableEq

/-- The text of an error. -/
def LimitsError.message (e : LimitsError) : String :=
  "Path limits exceed hard maximums: " ++ e.reason.message ++
    "\n\nHard limits:\n- max_expression_len: " ++ toString e.hard.maxLength ++
    " bytes\n- max_tasks: " ++ toString e.hard.maxTasks

namespace Limits

/-- The limits nobody may exceed. -/
def hardMaximum : Limits := ⟨8192, 256⟩

/-- Checks both bounds against the hard maximum, the length first. -/
def validate (limits : Limits) : Except LimitsError Unit :=
  if limits.maxLength > hardMaximum.maxLength then
    .error ⟨.length limits.maxLength hardMaximum.maxLength, hardMaximum⟩
  else if limits.maxTasks > hardMaximum.maxTasks then
    .error ⟨.tasks limits.maxTasks hardMaximum.maxTasks, hardMaximum⟩
  else .ok ()

end Limits

end RecordCipher
