import RecordCipher.Location
import RecordCipher.Tree.Basic

/-!
# Lawful trees

What reading and writing along plans relies on, whatever the flavor of the records. A node is
its head together with the nodes one step below it. Replacing one of these nodes keeps the head
and all others, and a tree is determined by the heads at all locations.

## Main definitions

* `Tree.child?`, `Tree.setChild`: a node one step below another, and setting it
* `TreeHead`, `headAt`: what a node is apart from the nodes below it
* `Replaced`: two nodes that differ in one of the nodes below them
* `LawfulTree`: the laws

## Main results

* `headAt_cons`, `nodeAt?_append`: following a location step by step
* `head_eq_of_headAt`, `headAt_cons_congr`: what the heads at all locations say of a node and of the
  nodes below it
* `isNull_of_nodeAt?`, `isArray_congr`: what heads say of kinds
-/

namespace RecordCipher

namespace Tree

variable {α : Type} [Tree α]

/-- A node one step below another. -/
def child? (node : α) : Location.Step → Except AccessError (Option α)
  | .field name => field? node name
  | .index i => .ok (element? node i)

/-- What setting a node one step below another comes to, with the checks that the flavor makes, and
the node that is left. -/
def setChild (node : α) : Location.Step → α → Outcome AccessError α
  | .field name, value => setField node name value
  | .index i, value => setElement node i value

theorem child?_index {node : α} {items : List α} (h : elements? node = some items) (i : Nat) :
    child? node (.index i) = .ok items[i]? := by
  simp [child?, element?, h]

end Tree

/-- Heads of nodes. -/
class TreeHead (α : Type) where
  /-- What nodes can be apart from the nodes below them. -/
  Head : Type
  /-- What a node is apart from the nodes below it. -/
  head : α → Head

export TreeHead (Head head)

/-- A node that differs from another in a node one step below it, and in nothing else. -/
structure Replaced {α : Type} [Tree α] [TreeHead α] (before : α) (step : Location.Step)
    (value after : α) : Prop where
  head_eq : head after = head before
  child?_self : Tree.child? after step = .ok (some value)
  child?_of_ne : ∀ other, other ≠ step → Tree.child? after other = Tree.child? before other

/-- The head of the node at a location, if there is one. -/
def headAt {α : Type} [Tree α] [TreeHead α] (location : Location) (node : α) :
    Except AccessError (Option (Head α)) :=
  (nodeAt? location node).map (Option.map head)

/-- The laws of trees. `Sound` is what the type of the records guarantees of every value, and
what all operations keep. -/
class LawfulTree (α : Type) [Tree α] extends TreeHead α where
  /-- What the type of the records guarantees of every value. -/
  Sound : α → Prop
  -- what the head decides
  kind_congr : ∀ {a b : α}, head a = head b → Tree.kind a = Tree.kind b
  isNull_congr : ∀ {a b : α}, head a = head b → Tree.isNull a = Tree.isNull b
  length?_congr : ∀ {a b : α}, head a = head b → Tree.length? a = Tree.length? b
  elements?_of_isNull : ∀ {node : α}, Tree.isNull node = true → Tree.elements? node = none
  field?_of_isNull : ∀ {node : α} {name : String}, Tree.isNull node = true →
    ∃ e, Tree.field? node name = .error e
  -- fields and elements in focus
  field?_eq : ∀ (node : α) (name : String),
    Tree.field? node name = (Tree.focusField? node name).map (Option.map Focus.part)
  elements?_eq : ∀ node : α, Tree.elements? node = (Tree.focusElements? node).map Focus.part
  put_field_self : ∀ {node : α} {name : String} {f : Focus α α},
    Tree.focusField? node name = .ok (some f) → f.put f.part = node
  put_elements_self : ∀ {node : α} {f : Focus α (List α)},
    Tree.focusElements? node = some f → f.put f.part = node
  focusField?_put : ∀ {node : α} {name : String} {f : Focus α α},
    Tree.focusField? node name = .ok (some f) → ∀ value,
      Tree.focusField? (f.put value) name = .ok (some ⟨value, f.put⟩)
  focusElements?_put : ∀ {node : α} {f : Focus α (List α)},
    Tree.focusElements? node = some f → ∀ items,
      Tree.focusElements? (f.put items) = some ⟨items, f.put⟩
  head_put_field : ∀ {node : α} {name : String} {f : Focus α α},
    Tree.focusField? node name = .ok (some f) → ∀ value, head (f.put value) = head node
  replaced_put_field : ∀ {node : α} {name : String} {f : Focus α α}, Sound node →
    Tree.focusField? node name = .ok (some f) → ∀ value,
      Replaced node (.field name) value (f.put value)
  head_put_elements : ∀ {node : α} {f : Focus α (List α)},
    Tree.focusElements? node = some f → ∀ items, items.length = f.part.length →
      head (f.put items) = head node
  field?_put_elements : ∀ {node : α} {f : Focus α (List α)},
    Tree.focusElements? node = some f → ∀ items name,
      Tree.field? (f.put items) name = Tree.field? node name
  -- checked writes
  replaced_setChild : ∀ {node value node' : α} {step : Location.Step}, Sound node →
    Tree.setChild node step value = .ok () node' → Replaced node step value node'
  -- the invariant
  sound_child : ∀ {node child : α} {step : Location.Step}, Sound node →
    Tree.child? node step = .ok (some child) → Sound child
  sound_put_field : ∀ {node value : α} {name : String} {f : Focus α α}, Sound node →
    Tree.focusField? node name = .ok (some f) → Sound value → Sound (f.put value)
  sound_put_elements : ∀ {node : α} {f : Focus α (List α)} {items : List α},
    Tree.focusElements? node = some f → (∀ item ∈ items, Sound item) → Sound (f.put items)
  sound_setChild : ∀ {node value node' : α} {step : Location.Step}, Sound node → Sound value →
    Tree.setChild node step value = .ok () node' → Sound node'
  ext : ∀ {a b : α}, Sound a → Sound b → (∀ l, headAt l a = headAt l b) → a = b

export LawfulTree (Sound)

/-! ## What is in focus -/

section Focus

variable {α : Type} [Tree α] [LawfulTree α] {node : α}

/-- The field in focus is the one that is found one step below. -/
theorem child?_of_focusField? {name : String} {f : Focus α α}
    (h : Tree.focusField? node name = .ok (some f)) :
    Tree.child? node (.field name) = .ok (some f.part) := by
  rw [Tree.child?, LawfulTree.field?_eq, h]
  rfl

theorem exists_focus_of_child? {name : String} {child : α}
    (h : Tree.child? node (.field name) = .ok (some child)) :
    ∃ f, Tree.focusField? node name = .ok (some f) ∧ f.part = child := by
  rw [Tree.child?, LawfulTree.field?_eq] at h
  rcases hf : Tree.focusField? node name with e | _ | f <;> rw [hf] at h
  · cases h
  · cases h
  · exact ⟨f, rfl, by simpa [Except.map] using h⟩

/-- The elements in focus are those of the node. -/
theorem elements?_of_focusElements? {f : Focus α (List α)}
    (h : Tree.focusElements? node = some f) : Tree.elements? node = some f.part := by
  rw [LawfulTree.elements?_eq, h]
  rfl

/-- The elements that are put in focus are those of the node then. -/
theorem elements?_put {f : Focus α (List α)} (h : Tree.focusElements? node = some f)
    (items : List α) : Tree.elements? (f.put items) = some items :=
  elements?_of_focusElements? (LawfulTree.focusElements?_put h items)

end Focus

/-! ## Following locations -/

section Locations

variable {α : Type} [Tree α]

@[simp] theorem nodeAt?_nil (node : α) : nodeAt? [] node = .ok (some node) := by
  simp [nodeAt?]

theorem nodeAt?_cons (step : Location.Step) (below : Location) (node : α) :
    nodeAt? (step :: below) node =
      match Tree.child? node step with
      | .error e => .error e
      | .ok none => .ok none
      | .ok (some child) => nodeAt? below child := by
  cases step with
  | field name =>
    rcases hf : Tree.field? node name with e | _ | child <;> simp only [nodeAt?, Tree.child?, hf]
  | index i =>
    rcases he : Tree.element? node i with _ | child <;> simp only [nodeAt?, Tree.child?, he]

@[simp] theorem nodeAt?_singleton (step : Location.Step) (node : α) :
    nodeAt? [step] node = Tree.child? node step := by
  rw [nodeAt?_cons]
  rcases Tree.child? node step with e | _ | child <;> simp

theorem nodeAt?_append {l below : Location} {node reached : α}
    (h : nodeAt? l node = .ok (some reached)) :
    nodeAt? (l ++ below) node = nodeAt? below reached := by
  induction l generalizing node with
  | nil =>
    obtain rfl : node = reached := by simpa using h
    rfl
  | cons step rest ih =>
    rw [List.cons_append, nodeAt?_cons]
    rw [nodeAt?_cons] at h
    rcases hc : Tree.child? node step with e | _ | child <;> simp only [hc] at h ⊢
    · cases h
    · cases h
    · exact ih h

/-- Nothing is below where nothing is. -/
theorem nodeAt?_append_of_none {l : Location} {node : α} (h : nodeAt? l node = .ok none)
    (below : Location) : nodeAt? (l ++ below) node = .ok none := by
  induction l generalizing node with
  | nil => simp at h
  | cons step rest ih =>
    rw [nodeAt?_cons] at h
    rw [List.cons_append, nodeAt?_cons]
    rcases hc : Tree.child? node step with e | _ | child <;> simp only [hc] at h ⊢
    · cases h
    · exact ih h

variable [TreeHead α]

@[simp] theorem headAt_nil (node : α) : headAt [] node = .ok (some (head node)) := by
  simp [headAt, Except.map]

theorem headAt_cons (step : Location.Step) (below : Location) (node : α) :
    headAt (step :: below) node =
      match Tree.child? node step with
      | .error e => .error e
      | .ok none => .ok none
      | .ok (some child) => headAt below child := by
  rw [headAt, nodeAt?_cons]
  rcases Tree.child? node step with e | _ | child <;> rfl

theorem headAt_of_nodeAt? {node reached : α} {l : Location}
    (h : nodeAt? l node = .ok (some reached)) : headAt l node = .ok (some (head reached)) := by
  rw [headAt, h]
  rfl

/-- A node has a counterpart where there is the same head. -/
theorem exists_nodeAt?_of_headAt_eq {a b x : α} {l l' : Location} (h : headAt l a = headAt l' b)
    (hx : nodeAt? l a = .ok (some x)) :
    ∃ y, nodeAt? l' b = .ok (some y) ∧ head y = head x := by
  rw [headAt_of_nodeAt? hx, headAt] at h
  rcases hb : nodeAt? l' b with e | _ | y <;> simp only [hb, Except.map, Option.map] at h
  · cases h
  · cases h
  · exact ⟨y, rfl, by simpa using h.symm⟩

/-- Where two trees have the same heads, the one has a node when the other has one. -/
theorem exists_nodeAt?_congr {a b : α} {l : Location} (h : headAt l a = headAt l b) :
    (∃ node, nodeAt? l a = .ok (some node)) ↔ ∃ node, nodeAt? l b = .ok (some node) := by
  constructor
  · rintro ⟨node, hnode⟩
    obtain ⟨other, hother, -⟩ := exists_nodeAt?_of_headAt_eq h hnode
    exact ⟨other, hother⟩
  · rintro ⟨node, hnode⟩
    obtain ⟨other, hother, -⟩ := exists_nodeAt?_of_headAt_eq h.symm hnode
    exact ⟨other, hother⟩

theorem head_eq_of_headAt {a b : α} (same : ∀ l, headAt l a = headAt l b) : head a = head b := by
  simpa using same []

/-- Nodes one step below two trees with the same heads everywhere have that, too. -/
theorem headAt_child_congr {a b x y : α} {step : Location.Step}
    (same : ∀ l, headAt l a = headAt l b) (ha : Tree.child? a step = .ok (some x))
    (hb : Tree.child? b step = .ok (some y)) (l : Location) : headAt l x = headAt l y := by
  have h := same (step :: l)
  rwa [headAt_cons, headAt_cons, ha, hb] at h

/-- Below different nodes with the same nodes one step below, there is the same. -/
theorem headAt_cons_congr {a b : α} {step : Location.Step}
    (h : Tree.child? a step = Tree.child? b step) (below : Location) :
    headAt (step :: below) a = headAt (step :: below) b := by
  rw [headAt_cons, headAt_cons, h]

end Locations

/-! ## Nodes that are null, and nodes that are arrays -/

section Kinds

variable {α : Type} [Tree α] [LawfulTree α]

/-- What has something below it that is not null is not null itself. -/
theorem isNull_of_nodeAt? {l : Location} {node reached : α}
    (h : nodeAt? l node = .ok (some reached)) (hnull : Tree.isNull reached = false) :
    Tree.isNull node = false := by
  cases l with
  | nil =>
    obtain rfl : node = reached := by simpa using h
    exact hnull
  | cons step below =>
    rw [nodeAt?_cons] at h
    cases hnode : Tree.isNull node with
    | false => rfl
    | true =>
      -- a null has neither fields nor elements
      cases step with
      | field name =>
        obtain ⟨e, he⟩ : ∃ e, Tree.field? node name = .error e := LawfulTree.field?_of_isNull hnode
        rw [Tree.child?, he] at h
        cases h
      | index i =>
        rw [Tree.child?, Tree.element?, LawfulTree.elements?_of_isNull hnode] at h
        cases h

theorem isArray_congr {a b : α} (h : head a = head b) : Tree.isArray a = Tree.isArray b := by
  have hlength := LawfulTree.length?_congr h
  unfold Tree.length? at hlength
  unfold Tree.isArray
  cases ha : Tree.elements? a <;> cases hb : Tree.elements? b <;> simp_all

end Kinds

end RecordCipher
