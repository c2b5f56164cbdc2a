import RecordCipher.Plan.Task

/-!
# Writing along a plan

Writing goes down the same levels as reading, over a copy of the record, which is given up with the
first failure. At each level, every node reached so far takes the replacements filed under the
locations one step below it; what stands there afterwards is what the next level goes on with.
Failures are met in the order of the levels, and within a level in the order of the nodes.

## Main definitions

* `Replacements`: values by the texts of the locations they are for
* `Task.write`: what a task writes below one node
* `rewriteReached`: a record in which the nodes that tasks lead to are rewritten
* `writeLevels`, `Plan.write`: the record written level by level
-/

namespace RecordCipher

variable {α : Type} [Tree α]

/-- Values by the texts of the locations they are for. -/
abbrev Replacements (α : Type) := PathMap α

/-- A node with the replacement for one of its fields set, if there is one. That the node has
no fields is reported where the node is, any other refusal where the field is. -/
def setReplacedField (replacements : Replacements α) (location : Location) (name : String)
    (node : α) : Except ResolutionError α :=
  match replacements.get? (location.field name).text with
  | none => .ok node
  | some value =>
    match (Tree.setField node name value).ofCopy with
    | .ok node => .ok node
    | .error (.notAnObject found) =>
      .error ((AccessError.notAnObject found).located location.text)
    | .error e => .error (e.located (location.field name).text)

/-- A node with the replacements for elements at some positions set. -/
def setReplacedElements (replacements : Replacements α) (location : Location) :
    List Nat → α → Except ResolutionError α
  | [], node => .ok node
  | i :: rest, node =>
    match replacements.get? (location.index i).text with
    | none => setReplacedElements replacements location rest node
    | some value =>
      match (Tree.setElement node i value).ofCopy with
      | .ok node => setReplacedElements replacements location rest node
      | .error e => .error (e.located (location.index i).text)

/-- Checks that no selected item from position `i` on is itself an array. -/
def checkNoArray (location : Location) (selection : Selection) :
    (i : Nat) → List α → Except ResolutionError Unit
  | _, [] => .ok ()
  | i, item :: rest =>
    if selection.selects i && !Tree.isNull item && Tree.isArray item then
      .error (.nestedArray (location.index i).text)
    else checkNoArray location selection (i + 1) rest

/-- What a task writes below a node. -/
def Task.write (replacements : Replacements α) (location : Location) (node : α) :
    Task → Except ResolutionError α
  | .field name => do
    let written ← setReplacedField replacements location name node
    match Tree.focusField? written name with
    | .ok _ => .ok written
    | .error e => .error (e.located location.text)
  | .elements selection =>
    match Tree.elements? node with
    | none => .error (.shapeMismatch location.text .array (Tree.kind node))
    | some items => do
      let written ←
        setReplacedElements replacements location (selection.positions items.length) node
      match Tree.focusElements? written with
      | none => .error (.shapeMismatch location.text .array (Tree.kind node))
      | some focus => do
        checkNoArray location selection 0 focus.part
        return written

/-- Rewrites the selected items that are not null, from position `i` on. -/
def rewriteItems (rewrite : Location → α → Except ResolutionError α) (location : Location)
    (selection : Selection) : (i : Nat) → List α → Except ResolutionError (List α)
  | _, [] => .ok []
  | i, item :: rest =>
    if selection.selects i && !Tree.isNull item then do
      let item ← rewrite (location.index i) item
      let rest ← rewriteItems rewrite location selection (i + 1) rest
      return item :: rest
    else (rewriteItems rewrite location selection (i + 1) rest).map (item :: ·)

/-- Rewrites every node that tasks lead to, and leaves all others as they are. -/
def rewriteReached (rewrite : Location → α → Except ResolutionError α) :
    List Task → Location → α → Except ResolutionError α
  | [], location, node => rewrite location node
  | .field name :: rest, location, node =>
    match Tree.focusField? node name with
    | .ok (some focus) =>
      if Tree.isNull focus.part then .ok node
      else (rewriteReached rewrite rest (location.field name) focus.part).map focus.put
    | _ => .ok node
  | .elements selection :: rest, location, node =>
    match Tree.focusElements? node with
    | none => .ok node
    | some focus =>
      (rewriteItems (rewriteReached rewrite rest) location selection 0 focus.part).map focus.put

/-- Writes at the levels of the remaining tasks, below the tasks that are done. -/
def writeLevels (replacements : Replacements α) (done : List Task) :
    List Task → α → Except ResolutionError α
  | [], root => .ok root
  | task :: rest, root => do
    let root ←
      rewriteReached (fun location node => task.write replacements location node) done
        Location.root root
    writeLevels replacements (done ++ [task]) rest root

/-- The record with replacements written along a plan. Without replacements nothing is looked
at, and without tasks only the root can be replaced. -/
def Plan.write (plan : Plan) (root : α) (replacements : Replacements α) :
    Except ResolutionError α :=
  if replacements.isEmpty then .ok root
  else if plan.tasks.isEmpty then .ok ((replacements.get? Location.root.text).getD root)
  else writeLevels replacements [] plan.tasks root

end RecordCipher
