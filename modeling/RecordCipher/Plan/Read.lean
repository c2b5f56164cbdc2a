import RecordCipher.Plan.Task

/-!
# Reading along a plan

Reading goes down level by level. The nodes reached at one level are its frontier; every task
replaces each of them by the nodes below it that the task selects. Absent and null fields,
null elements and positions beyond the end of an array select nothing. What the last frontier
holds is the result.

## Main definitions

* `Reached`: a node together with its location
* `Task.below`: the nodes a task selects below one node
* `advance`, `frontier`: the nodes reached by one task, and by several
* `Plan.read`: the values read along a plan, by the texts of their locations
-/

namespace RecordCipher

variable {α : Type} [Tree α]

/-- A node together with its location. -/
structure Reached (α : Type) where
  /-- The location of the node. -/
  location : Location
  /-- The node. -/
  node : α

/-- The selected elements that are not null, from position `i` on; an element cannot itself be
an array. -/
def selectedElements (location : Location) (selection : Selection) :
    (i : Nat) → List α → Except ResolutionError (List (Reached α))
  | _, [] => .ok []
  | i, item :: rest =>
    if selection.selects i && !Tree.isNull item then
      if Tree.isArray item then .error (.nestedArray (location.index i).text)
      else do
        let others ← selectedElements location selection (i + 1) rest
        return ⟨location.index i, item⟩ :: others
    else selectedElements location selection (i + 1) rest

/-- The nodes that a task selects below a node. -/
def Task.below (here : Reached α) : Task → Except ResolutionError (List (Reached α))
  | .field name =>
    match Tree.field? here.node name with
    | .error e => .error (e.located here.location.text)
    | .ok none => .ok []
    | .ok (some child) =>
      .ok (if Tree.isNull child then [] else [⟨here.location.field name, child⟩])
  | .elements selection =>
    match Tree.elements? here.node with
    | none => .error (.shapeMismatch here.location.text .array (Tree.kind here.node))
    | some items => selectedElements here.location selection 0 items

/-- The nodes that a task selects below the nodes of a frontier, or the first failure. -/
def advance (task : Task) : List (Reached α) → Except ResolutionError (List (Reached α))
  | [] => .ok []
  | here :: rest => do
    let below ← task.below here
    let others ← advance task rest
    return below ++ others

/-- The nodes reached from a frontier by tasks, one after another. -/
def frontier : List Task → List (Reached α) → Except ResolutionError (List (Reached α))
  | [], reached => .ok reached
  | task :: rest, reached => do
    let below ← advance task reached
    frontier rest below

/-- The nodes reached from the root of a record by tasks. -/
def reach (tasks : List Task) (root : α) : Except ResolutionError (List (Reached α)) :=
  frontier tasks [⟨Location.root, root⟩]

/-- The values read along a plan, filed under the texts of their locations. -/
def Plan.read (plan : Plan) (root : α) : Except ResolutionError (PathMap α) :=
  (reach plan.tasks root).map fun reached =>
    SortedMap.ofList (reached.map fun here => (here.location.text, here.node))

end RecordCipher
