import RecordCipher.Plan.Task

/-!
# The plans of the configured fields

## Main definitions

* `FlavorPlans`, `FlavorPlans.find?`: plans for records of one flavor, and the plan of a text
* `FieldSelector`, `FieldSelector.compile`: the distinct expressions among texts, with their plans
  for either flavor
* `FieldPlans`: one plan for each distinct expression, in the order of their first mention
* `FieldPlans.compile`: the plans of a list of texts
* `FieldPlans.find?`: the plan of a text
-/

namespace RecordCipher

/-- Plans for records of one flavor. -/
structure FlavorPlans where
  /-- The plans. -/
  plans : List Plan
  /-- The positions of the plans by their expressions, those added last first. -/
  index : List (String × Nat)
  deriving Repr, DecidableEq

namespace FlavorPlans

/-- No plans. -/
def empty : FlavorPlans := ⟨[], []⟩

/-- One more plan, behind the others. -/
def push (p : FlavorPlans) (e : Expression) : FlavorPlans where
  plans := p.plans ++ [e.plan]
  index := (e.source, p.plans.length) :: p.index

/-- The plan at the position that is listed for a text. -/
def find? (p : FlavorPlans) (text : String) : Option Plan :=
  (p.index.lookup text).bind fun position => p.plans[position]?

end FlavorPlans

/-- Plans of distinct expressions. The same plans serve both flavors of records. -/
structure FieldPlans where
  /-- The plans, in the order of the first mention of their expressions. -/
  plans : List Plan
  deriving Repr, DecidableEq

/-- The distinct expressions among texts, with their plans. -/
structure FieldSelector where
  /-- The expressions, in the order of their first mention. -/
  expressions : List String
  /-- The plans for documents. -/
  generic : FlavorPlans
  /-- The plans for records with a schema. -/
  structured : FlavorPlans
  deriving Repr, DecidableEq

namespace FieldSelector

/-- No expressions. -/
def empty : FieldSelector := ⟨[], .empty, .empty⟩

/-- One more expression, behind the others. -/
def push (s : FieldSelector) (text : String) (e : Expression) : FieldSelector where
  expressions := s.expressions ++ [text]
  generic := s.generic.push e
  structured := s.structured.push e

/-- The expressions with those of the texts that were not seen before. -/
def compileUnseen (limits : Limits) (seen : List String) (s : FieldSelector) :
    List String → Except ParseError FieldSelector
  | [] => .ok s
  | text :: rest =>
    if text ∈ seen then compileUnseen limits seen s rest
    else do
      let e ← Expression.parseWithin limits text
      compileUnseen limits (text :: seen) (s.push text e) rest

/-- The expressions of a list of texts, or the error of the first that is none. -/
def compile (limits : Limits) (texts : List String) : Except ParseError FieldSelector :=
  compileUnseen limits [] empty texts

/-- The plans for one flavor. -/
def flavor (s : FieldSelector) : Flavor → FlavorPlans
  | .generic => s.generic
  | .structured => s.structured

/-- The plans that are followed in records of either flavor: what a plan is does not depend on
the flavor. -/
def fields (s : FieldSelector) : FieldPlans := ⟨s.generic.plans⟩

end FieldSelector

namespace FieldPlans

/-- The plans of a list of texts, or the error of the first that is no expression. -/
def compile (limits : Limits) (texts : List String) : Except ParseError FieldPlans :=
  (FieldSelector.compile limits texts).map FieldSelector.fields

/-- The distinct expressions. -/
def expressions (fields : FieldPlans) : List String := fields.plans.map Plan.expression

/-- The plan of a text. -/
def find? (fields : FieldPlans) (text : String) : Option Plan :=
  fields.plans.find? fun plan => plan.expression == text

end FieldPlans

end RecordCipher
