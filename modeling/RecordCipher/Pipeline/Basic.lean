import RecordCipher.Pipeline.Condition
import RecordCipher.Pipeline.FieldPlans
import RecordCipher.Plan.Write

/-!
# Pipelines

A pipeline takes records one at a time. It looks whether the record is meant at all, collects
the items of the configured fields, hands them to the cipher service in one batch, and writes
what comes back into a copy of the record.

## Main definitions

* `collect`: the items of the configured fields of a record
* `repliesFor`, `splice`: writing a reply back into a record
* `Prepared`, `Pipeline`, `Pipeline.begin`: accepted settings, pipelines, and setting one up
* `Pipeline.transform`: taking one record of either flavor
* `AnyRecord`, `Pipeline.apply`, `Pipeline.applyAll`: taking the records of a host
-/

namespace RecordCipher

section

variable {α : Type} [Leaf α]

/-- The items of values, under the keys of the expression that selected them. -/
def itemsOf (expression : String) :
    List (String × α) → Except PipelineError (List (FieldKey × Item))
  | [] => .ok []
  | (path, node) :: rest =>
    match Leaf.toItem? node with
    | none => .error (.unsupportedValue path (Tree.kind node))
    | some item => do
      let others ← itemsOf expression rest
      return (⟨expression, path⟩, item) :: others

/-- The items of the fields of several plans. The first plan that cannot be followed, or the
first value that is no leaf, stops the collection. -/
def collect (record : α) : List Plan → Except PipelineError (List (FieldKey × Item))
  | [] => .ok []
  | plan :: rest => do
    let values ← (plan.read record).mapError PipelineError.resolution
    let items ← itemsOf plan.expression values.entries
    let others ← collect record rest
    return items ++ others

/-- The leaves among the entries of a reply that answer an expression, by the texts of their
locations. -/
def repliesFor (encoding : Encoding) (expression : String) (answers : List (FieldKey × Item)) :
    Replacements α :=
  SortedMap.ofList (answers.filterMap fun (key, item) =>
    if key.expression = expression then some (key.path, Leaf.ofItem encoding item) else none)

/-- Writes the entries of a reply into a record, one expression after another. What answers no
expression is ignored. -/
def splice (encoding : Encoding) (answers : List (FieldKey × Item)) :
    List Plan → α → Except ResolutionError α
  | [], record => .ok record
  | plan :: rest, record => do
    let record ← plan.write record (repliesFor encoding plan.expression answers)
    splice encoding answers rest record

end

/-- What a pipeline knows before it talks to its service. -/
structure Prepared where
  /-- The settings. -/
  settings : Settings
  /-- The plans of the configured fields. -/
  fields : FieldPlans
  /-- The condition, if only some records are meant. -/
  condition : Option Condition
  deriving Repr, DecidableEq

/-- A pipeline: what it does, and the service it does it with. -/
structure Pipeline (m : Type → Type) extends Prepared where
  /-- The cipher service. -/
  service : Service m

namespace Prepared

/-- Checks settings and compiles their expressions. -/
def ofSettings (settings : Settings) : Except PipelineError Prepared := do
  settings.validate
  let limits := settings.effectiveLimits
  let fields ← (FieldPlans.compile limits settings.fields).mapError PipelineError.expression
  match settings.filter with
  | none => return ⟨settings, fields, none⟩
  | some filter =>
    let condition ← (Condition.ofFilter limits filter).mapError PipelineError.expression
    return ⟨settings, fields, some condition⟩

variable {α : Type} [Leaf α]

/-- Whether a record is meant. -/
def concerns (p : Prepared) (record : α) : Except PipelineError Bool :=
  match p.condition with
  | none => .ok true
  | some condition => (condition.accepts record).mapError PipelineError.resolution

/-- The batch of items that a record makes; it is empty for a record that is not meant. -/
def batch (p : Prepared) (record : α) : Except PipelineError ItemMap := do
  if ← p.concerns record then
    let items ← collect record p.fields.plans
    return SortedMap.ofList items
  else return SortedMap.empty

/-- The record with a reply written into it. -/
def update (p : Prepared) (record : α) (reply : ItemMap) : Except PipelineError α :=
  (splice p.settings.encoding reply.entries p.fields.plans record).mapError PipelineError.resolution

end Prepared

/-- A record of a host. -/
inductive AnyRecord where
  /-- A record without a schema. -/
  | generic (value : Json)
  /-- A record with a schema. -/
  | structured (record : Record)
  /-- A record without a value. -/
  | empty

namespace Pipeline

variable {m : Type → Type} [Monad m]

/-- Sets a pipeline up. The service is started last, so that it is never started for settings
that are refused. -/
def begin (settings : Settings) (service : Service m) : m (Except PipelineError (Pipeline m)) :=
  match Prepared.ofSettings settings with
  | .error e => pure (.error e)
  | .ok prepared => do
    match ← service.start with
    | .error e => pure (.error (.service e))
    | .ok () => pure (.ok { prepared with service })

/-- Stops the service of a pipeline that is no longer needed. -/
def finish (p : Pipeline m) : m Unit := p.service.stop

/-- Takes one record. The service is called once, with all items of the record, and not at all
when there are none. -/
def transform {α : Type} [Leaf α] (p : Pipeline m) (record : α) : m (Except PipelineError α) :=
  match p.batch record with
  | .error e => pure (.error e)
  | .ok items =>
    if items.isEmpty then pure (.ok record)
    else do
      match ← p.service.process items with
      | .error e => pure (.error (.service e))
      | .ok reply => pure (p.update record reply)

/-- The record that a transformed value is. -/
def asRecord (value : Datum) : Except PipelineError Record :=
  match Record.ofDatum? value with
  | some record => .ok record
  | none => .error (.unsupportedValue Location.root.text value.kind)

/-- Takes a record with a schema. -/
def transformRecord (p : Pipeline m) (record : Record) : m (Except PipelineError Record) := do
  let result ← p.transform record.toDatum
  return result.bind asRecord

/-- Takes a record of a host; one without a value passes through. -/
def apply (p : Pipeline m) : AnyRecord → m (Except PipelineError AnyRecord)
  | .generic value => return (← p.transform value).map AnyRecord.generic
  | .structured record => return (← p.transformRecord record).map AnyRecord.structured
  | .empty => return .ok .empty

/-- Takes several records, each for itself. -/
def applyAll (p : Pipeline m) : List AnyRecord → m (List (Except PipelineError AnyRecord))
  | [] => return []
  | record :: rest => do
    let result ← p.apply record
    let others ← p.applyAll rest
    return result :: others

end Pipeline

end RecordCipher
