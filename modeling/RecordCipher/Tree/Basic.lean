import RecordCipher.Data.Change
import RecordCipher.Tree.Access

/-!
# Trees of records

Paths are followed in records of two flavors: free documents, and records with a declared
schema. Both are trees of nodes, and everything that reads or writes records along paths uses
only the operations of this module.

## Main definitions

* `Flavor`: the two kinds of records
* `Focus`: a part of a node, and the node with another part in its place
* `Tree`: the access a node grants to its fields and elements
* `nodeAt?`, `editAt`: the node at a location, and a tree with that node edited
-/

namespace RecordCipher

/-- The two kinds of records. -/
inductive Flavor where
  /-- Nested maps and lists without a schema. -/
  | generic
  /-- Records with a declared schema. -/
  | structured
  deriving Repr, DecidableEq

/-- The name of a flavor. -/
def Flavor.name : Flavor → String
  | generic => "generic"
  | structured => "structured"

/-- A part of a node, and the node with another part in its place. -/
structure Focus (α β : Type) where
  /-- The part as it is. -/
  part : β
  /-- The node with another part in its place; nothing is checked. -/
  put : β → α

/-- The access a node grants to its fields and elements.

A field that may be absent and is absent is `none`; access is refused where there cannot be
such a field. A value takes the place of a field or an element either with the checks that the
flavor makes, by `setField` and `setElement`, which change the node in place, or unchecked through a
focus on what is there. -/
class Tree (α : Type) where
  /-- The flavor of all nodes. -/
  flavor : Flavor
  /-- The kind of a node, as messages name it. -/
  kind : α → String
  /-- Whether a node only marks the place of an absent value. -/
  isNull : α → Bool
  /-- A field of a node. -/
  field? : α → String → Except AccessError (Option α)
  /-- What setting a field of a node comes to, and the node that is left. -/
  setField : α → String → α → Outcome AccessError α
  /-- A field of a node, in focus. -/
  focusField? : α → String → Except AccessError (Option (Focus α α))
  /-- The elements of a node. -/
  elements? : α → Option (List α)
  /-- What overwriting an element of a node comes to, and the node that is left. -/
  setElement : α → Nat → α → Outcome AccessError α
  /-- The elements of a node, in focus. -/
  focusElements? : α → Option (Focus α (List α))

namespace Tree

variable {α : Type} [Tree α]

/-- Whether a node is an array. -/
def isArray (node : α) : Bool := (elements? node).isSome

/-- The number of elements of a node. -/
def length? (node : α) : Option Nat := (elements? node).map List.length

/-- An element of a node. -/
def element? (node : α) (i : Nat) : Option α := (elements? node).bind fun items => items[i]?

/-- Whether a node has a value for a field. -/
def hasField (node : α) (name : String) : Bool :=
  match field? node name with
  | .ok (some _) => true
  | _ => false

end Tree

/-- The refusal of an element beyond the end of an array. -/
def outOfRange (i length : Nat) : AccessError :=
  .rejected s!"index {i} out of range for array of length {length}"

section

variable {α : Type} [Tree α]

/-- The node at a location, if there is one; fields are refused where there are none. -/
def nodeAt? : Location → α → Except AccessError (Option α)
  | [], node => .ok (some node)
  | .field name :: rest, node =>
    match Tree.field? node name with
    | .error e => .error e
    | .ok none => .ok none
    | .ok (some child) => nodeAt? rest child
  | .index i :: rest, node =>
    match Tree.element? node i with
    | none => .ok none
    | some child => nodeAt? rest child

/-- A tree with the node at a location edited; nothing changes when there is no such node. -/
def editAt (edit : α → Except AccessError α) : Location → α → Except AccessError α
  | [], node => edit node
  | .field name :: rest, node =>
    match Tree.focusField? node name with
    | .error e => .error e
    | .ok none => .ok node
    | .ok (some focus) => (editAt edit rest focus.part).map focus.put
  | .index i :: rest, node =>
    match Tree.focusElements? node with
    | none => .ok node
    | some focus =>
      match focus.part[i]? with
      | none => .ok node
      | some child =>
        (editAt edit rest child).map fun child => focus.put (focus.part.set i child)

end

end RecordCipher
