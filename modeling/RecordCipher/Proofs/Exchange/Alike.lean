import RecordCipher.Exchange.Leaf
import RecordCipher.Proofs.Plan.Reading

/-!
# Records that differ in their leaves

A cipher service puts leaves in place of leaves. Two records are alike when they differ in
nothing else: when at every location both have the same head, or else both have leaves of one
kind. Plans are followed in alike records in the same way, and lead to alike nodes at the same
locations.

## Main definitions

* `isLeaf`: the nodes that can be exchanged with the service
* `outline`, `Alike`: what alike records have in common
* `LawfulLeaf`: what the exchange relies on, whatever the flavor of the records

## Main results

* `Alike.of_leaves`: leaves of one kind are alike
* `Alike.readable`, `Alike.reaches`: plans do the same in alike records
-/

namespace RecordCipher

/-- Whether a node is a leaf. -/
def isLeaf {α : Type} [Leaf α] (node : α) : Bool := (Leaf.toItem? node).isSome

section Outline

variable {α : Type} [Leaf α] [TreeHead α]

/-- What a node is apart from the nodes below it, and apart from its value if it is a leaf. -/
def outline (node : α) : Head α ⊕ String :=
  if isLeaf node then .inr (Tree.kind node) else .inl (head node)

/-- The outline of the node at a location, if there is one. -/
def outlineAt (location : Location) (node : α) :
    Except AccessError (Option (Head α ⊕ String)) :=
  (nodeAt? location node).map (Option.map outline)

/-- Records that differ at most in the values of leaves. -/
def Alike (a b : α) : Prop := ∀ l, outlineAt l a = outlineAt l b

theorem Alike.refl (a : α) : Alike a a := fun _ => rfl

theorem Alike.symm {a b : α} (h : Alike a b) : Alike b a := fun l => (h l).symm

theorem Alike.trans {a b c : α} (h : Alike a b) (h' : Alike b c) : Alike a c :=
  fun l => (h l).trans (h' l)

@[simp] theorem outlineAt_nil (node : α) : outlineAt [] node = .ok (some (outline node)) := by
  simp [outlineAt, Except.map]

theorem outlineAt_cons (step : Location.Step) (below : Location) (node : α) :
    outlineAt (step :: below) node =
      match Tree.child? node step with
      | .error e => .error e
      | .ok none => .ok none
      | .ok (some child) => outlineAt below child := by
  rw [outlineAt, nodeAt?_cons]
  rcases Tree.child? node step with e | _ | child <;> rfl

theorem Alike.outline_eq {a b : α} (h : Alike a b) : outline a = outline b := by
  simpa using h []

/-- What is one step below a node has its like one step below an alike node. -/
theorem Alike.child {a b x : α} {step : Location.Step} (h : Alike a b)
    (hx : Tree.child? a step = .ok (some x)) :
    ∃ y, Tree.child? b step = .ok (some y) ∧ Alike x y := by
  have hstep := h [step]
  rw [outlineAt_cons, outlineAt_cons, hx] at hstep
  rcases hy : Tree.child? b step with e | _ | y <;> simp only [hy] at hstep
  · cases hstep
  · cases hstep
  · refine ⟨y, rfl, fun l => ?_⟩
    have hbelow := h (step :: l)
    rwa [outlineAt_cons, outlineAt_cons, hx, hy] at hbelow

theorem Alike.child_none {a b : α} {step : Location.Step} (h : Alike a b)
    (ha : Tree.child? a step = .ok none) : Tree.child? b step = .ok none := by
  have hstep := h [step]
  rw [outlineAt_cons, outlineAt_cons, ha] at hstep
  rcases hb : Tree.child? b step with e | _ | y <;> simp only [hb] at hstep
  · cases hstep
  · rfl
  · cases hstep

theorem Alike.nodeAt? {a b x : α} {l : Location} (h : Alike a b)
    (hx : nodeAt? l a = .ok (some x)) :
    ∃ y, RecordCipher.nodeAt? l b = .ok (some y) ∧ Alike x y := by
  -- Induction on the location: what is one step below alike nodes is alike.
  induction l generalizing a b with
  | nil =>
    obtain rfl : a = x := by simpa using hx
    exact ⟨b, by simp, h⟩
  | cons step rest ih =>
    rw [nodeAt?_cons] at hx
    rcases hc : Tree.child? a step with e | _ | child <;> simp only [hc] at hx
    · cases hx
    · cases hx
    · obtain ⟨child', hc', halike⟩ := h.child hc
      rw [nodeAt?_cons, hc']
      exact ih halike hx

end Outline

/-- The laws of the exchange with a service. `Typed` is what the operations on records keep
beyond what their type guarantees: every field holds a value that its schema admits. -/
class LawfulLeaf (α : Type) [Leaf α] extends LawfulTree α where
  /-- Every field holds a value that its schema admits. -/
  Typed : α → Prop
  -- leaves
  toItem?_congr : ∀ {a b : α}, head a = head b → Leaf.toItem? a = Leaf.toItem? b
  isLeaf_ofItem : ∀ (encoding : Encoding) (item : Item),
    isLeaf (Leaf.ofItem encoding item : α) = true
  sound_leaf : ∀ {leaf : α}, isLeaf leaf = true → Sound leaf
  isNull_leaf : ∀ {leaf : α}, isLeaf leaf = true → Tree.isNull leaf = false
  elements?_leaf : ∀ {leaf : α}, isLeaf leaf = true → Tree.elements? leaf = none
  child?_leaf : ∀ {a b : α}, isLeaf a = true → isLeaf b = true → Tree.kind a = Tree.kind b →
    ∀ step, Tree.child? a step = Tree.child? b step
  -- typed records
  typed_child : ∀ {node child : α} {step : Location.Step}, Typed node →
    Tree.child? node step = .ok (some child) → Typed child
  typed_congr : ∀ {a b : α}, Alike a b → Typed a → Typed b
  setChild_leaf_iff : ∀ {node old new : α} {step : Location.Step}, Typed node →
    Tree.child? node step = .ok (some old) → isLeaf old = true → isLeaf new = true →
      ((∃ node', Tree.setChild node step new = .ok () node') ↔ Tree.kind new = Tree.kind old)

export LawfulLeaf (Typed)

variable {α : Type} [Leaf α] [LawfulLeaf α] {a b : α}

/-! ## What heads decide -/

theorem isLeaf_congr (h : head a = head b) : isLeaf a = isLeaf b := by
  rw [isLeaf, isLeaf, LawfulLeaf.toItem?_congr h]

theorem outline_congr (h : head a = head b) : outline a = outline b := by
  rw [outline, outline, isLeaf_congr h, h, LawfulTree.kind_congr h]

theorem outlineAt_congr {l l' : Location} (h : headAt l a = headAt l' b) :
    outlineAt l a = outlineAt l' b := by
  unfold headAt at h
  unfold outlineAt
  rcases ha : nodeAt? l a with e | _ | x <;> rcases hb : nodeAt? l' b with e' | _ | y <;>
    simp_all only [Except.map, Option.map, Except.ok.injEq, Option.some.injEq, reduceCtorEq,
      Except.error.injEq]
  exact outline_congr h

/-- Leaves of one kind are alike. -/
theorem Alike.of_leaves (ha : isLeaf a = true) (hb : isLeaf b = true)
    (hkind : Tree.kind a = Tree.kind b) : Alike a b := by
  intro l
  cases l with
  | nil => simp [outline, ha, hb, hkind]
  | cons step below =>
    rw [outlineAt_cons, outlineAt_cons, LawfulLeaf.child?_leaf ha hb hkind step]

/-! ## What alike nodes have in common -/

theorem Alike.isLeaf_eq (h : Alike a b) : isLeaf a = isLeaf b := by
  have houtline := h.outline_eq
  unfold outline at houtline
  cases ha : isLeaf a <;> cases hb : isLeaf b <;> simp_all

theorem Alike.kind_eq (h : Alike a b) : Tree.kind a = Tree.kind b := by
  have houtline := h.outline_eq
  unfold outline at houtline
  cases ha : isLeaf a <;> rw [← h.isLeaf_eq, ha] at houtline
  · exact LawfulTree.kind_congr (by simpa using houtline)
  · simpa using houtline

theorem Alike.isNull_eq (h : Alike a b) : Tree.isNull a = Tree.isNull b := by
  have houtline := h.outline_eq
  have hleaf := h.isLeaf_eq
  cases ha : isLeaf a with
  | true => rw [LawfulLeaf.isNull_leaf ha, LawfulLeaf.isNull_leaf (hleaf ▸ ha)]
  | false =>
    rw [outline, outline, ← hleaf, ha] at houtline
    exact LawfulTree.isNull_congr (by simpa using houtline)

theorem Alike.length?_eq (h : Alike a b) : Tree.length? a = Tree.length? b := by
  have houtline := h.outline_eq
  have hleaf := h.isLeaf_eq
  cases ha : isLeaf a with
  | true =>
    rw [Tree.length?, Tree.length?, LawfulLeaf.elements?_leaf ha,
      LawfulLeaf.elements?_leaf (hleaf ▸ ha)]
  | false =>
    rw [outline, outline, ← hleaf, ha] at houtline
    exact LawfulTree.length?_congr (by simpa using houtline)

theorem Alike.isArray_eq (h : Alike a b) : Tree.isArray a = Tree.isArray b := by
  have hlength := congrArg Option.isSome h.length?_eq
  simpa [Tree.length?, Tree.isArray] using hlength

/-! ## Following plans -/

theorem Alike.fits {task : Task} (h : Alike a b) (hfits : task.Fits a) : task.Fits b := by
  cases task with
  | field name =>
    obtain ⟨child, hchild⟩ := hfits
    have hchild : Tree.child? a (.field name) = .ok child := hchild
    cases child with
    | none => exact ⟨none, h.child_none hchild⟩
    | some x =>
      obtain ⟨y, hy, -⟩ := h.child hchild
      exact ⟨some y, hy⟩
  | elements selection =>
    obtain ⟨items, helems, hitems⟩ := hfits
    have hlength := h.length?_eq
    rw [Tree.length?, helems] at hlength
    -- the other node is an array of the same length, whose elements are alike
    obtain ⟨items', helems', -⟩ := Option.map_eq_some_iff.mp hlength.symm
    refine ⟨items', helems', ?_⟩
    intro i item' hget' hsel hnull
    have hchild' : Tree.child? b (.index i) = .ok (some item') := by
      rw [Tree.child?_index helems', hget']
    obtain ⟨item, hchild, halike⟩ := h.symm.child hchild'
    rw [halike.isArray_eq]
    rw [halike.isNull_eq] at hnull
    rw [Tree.child?_index helems] at hchild
    exact hitems i item (by simpa using hchild) hsel hnull

/-- Tasks can be followed below alike nodes. -/
theorem Alike.readable {tasks : List Task} (h : Alike a b) (hread : Readable tasks a) :
    Readable tasks b := by
  -- Induction on the tasks: the next ones are followed below alike nodes.
  induction tasks generalizing a b with
  | nil => trivial
  | cons task rest ih =>
    refine ⟨h.fits hread.1, ?_⟩
    intro step child hsel hchild hnull
    obtain ⟨child', hchild', halike⟩ := h.symm.child hchild
    rw [halike.isNull_eq] at hnull
    exact ih halike.symm (hread.2 step child' hsel hchild' hnull)

/-- Tasks lead to the same locations below alike nodes, and to alike nodes there. -/
theorem Alike.reaches {tasks : List Task} {l : Location} {x : α} (h : Alike a b)
    (hreach : Reaches tasks a l x) : ∃ y, Reaches tasks b l y ∧ Alike x y := by
  -- Induction on the tasks, which take the same steps below both nodes.
  induction tasks generalizing a b l with
  | nil =>
    obtain ⟨rfl, rfl⟩ := hreach
    exact ⟨b, ⟨rfl, rfl⟩, h⟩
  | cons task rest ih =>
    cases l with
    | nil => exact hreach.elim
    | cons step below =>
      obtain ⟨hsel, child, hchild, hnull, hreach⟩ := hreach
      obtain ⟨child', hchild', halike⟩ := h.child hchild
      obtain ⟨y, hy, hxy⟩ := ih halike hreach
      rw [halike.isNull_eq] at hnull
      exact ⟨y, ⟨hsel, child', hchild', hnull, hy⟩, hxy⟩

end RecordCipher
