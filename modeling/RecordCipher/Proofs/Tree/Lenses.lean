import RecordCipher.Proofs.Tree.Document
import RecordCipher.Proofs.Tree.Structured

/-!
# Fields and elements as lenses

What is set is found, nothing else is touched, and what is refused changes nothing: setting works on
a node in place, and the node that it leaves when it fails is the one that there was. A field in
focus is the field that is found, and putting another value there is setting it without the
checks. The two flavors have little in common here: the members of a document are listed by their
keys, and any of them can be set, while the fields of a record are found through the positions that
they were given, and values are checked. They obey the same laws.

## Main definitions

* `Tree.IsObject`: a node that does not refuse fields for want of having any
* `LensLaws`: the laws, at one node
* `Json.Settable`, `Datum.Settable`: what can be set one step below a node

## Main results

* `Json.setChild_eq_error`, `Datum.setChild_eq_error`: what is left when nothing could be set
* `LensLaws.of_replaced`: the laws, from what setting and putting change, and from which nodes are
  objects
* `lensLaws_both`: both flavors obey the laws
-/

namespace RecordCipher

/-! ## The laws -/

namespace Tree

variable {α : Type} [Tree α]

/-- A node has fields: none of them is refused because the node is no object. -/
def IsObject (node : α) : Prop :=
  ∀ name found, field? node name ≠ .error (.notAnObject found)

end Tree

/-- The laws of access to one node. -/
structure LensLaws {α : Type} [Tree α] [TreeHead α] (node : α) : Prop where
  /-- A field that is set is found, and every other field is as it was. -/
  setField : ∀ name value changed, Tree.setField node name value = .ok () changed →
    Tree.field? changed name = .ok (some value) ∧
      ∀ other, other ≠ name → Tree.field? changed other = Tree.field? node other
  /-- An element that is set is found, every other element is as it was, and there are as many. -/
  setElement : ∀ i value changed, Tree.setElement node i value = .ok () changed →
    Tree.element? changed i = some value ∧ Tree.length? changed = Tree.length? node ∧
      ∀ j, j ≠ i → Tree.element? changed j = Tree.element? node j
  /-- What is left when a field or an element is refused is the node that there was. -/
  refused : ∀ step value e left, Tree.setChild node step value = .error e left → left = node
  /-- A field is refused in focus, is absent or is there as it is found. -/
  focus : ∀ name, (Tree.focusField? node name).map (Option.map Focus.part) = Tree.field? node name
  /-- What is put in focus is found, every other field is as it was, and so is all else that the
  node is. Putting back what was there changes nothing. -/
  put : ∀ name focus, Tree.focusField? node name = .ok (some focus) →
    focus.put focus.part = node ∧ ∀ value,
      Tree.field? (focus.put value) name = .ok (some value) ∧
      (∀ other, other ≠ name → Tree.field? (focus.put value) other = Tree.field? node other) ∧
      (∀ i, Tree.element? (focus.put value) i = Tree.element? node i) ∧
      head (focus.put value) = head node
  /-- Fields are set in objects, which remain objects. -/
  shape : ∀ name value changed, Tree.setField node name value = .ok () changed →
    (Tree.IsObject node ∧ Tree.isArray node = false) ∧
      Tree.IsObject changed ∧ Tree.isArray changed = false
  /-- No node is an object and an array. -/
  apart : ¬ (Tree.IsObject node ∧ Tree.isArray node = true)

section

variable {α : Type} [Tree α]

namespace Replaced

variable [TreeHead α] {before after value : α}

theorem field?_of_ne {step : Location.Step} (h : Replaced before step value after)
    {other : String} (hne : .field other ≠ step) :
    Tree.field? after other = Tree.field? before other := h.child?_of_ne (.field other) hne

theorem element?_of_ne {step : Location.Step} (h : Replaced before step value after) {j : Nat}
    (hne : .index j ≠ step) : Tree.element? after j = Tree.element? before j :=
  Except.ok.inj (h.child?_of_ne (.index j) hne)

theorem element?_self {i : Nat} (h : Replaced before (.index i) value after) :
    Tree.element? after i = some value := Except.ok.inj h.child?_self

end Replaced

/-- The laws hold where setting replaces one node below or leaves the node that there was, where
putting replaces one node below, too, and where objects are no arrays. -/
theorem LensLaws.of_replaced [LawfulTree α] {node : α}
    (replaced : ∀ step value changed, Tree.setChild node step value = .ok () changed →
      Replaced node step value changed)
    (refused : ∀ step value e left, Tree.setChild node step value = .error e left → left = node)
    (replaced_put : ∀ name (focus : Focus α α), Tree.focusField? node name = .ok (some focus) →
      ∀ value, Replaced node (.field name) value (focus.put value))
    (object : ∀ name value changed, Tree.setField node name value = .ok () changed →
      Tree.IsObject node ∧ Tree.IsObject changed)
    (apart : ∀ node : α, Tree.IsObject node → Tree.isArray node = false) : LensLaws node where
  setField name value changed h := by
    have hreplaced := replaced (.field name) value changed h
    exact ⟨hreplaced.child?_self, fun other hne => hreplaced.field?_of_ne (by simpa using hne)⟩
  setElement i value changed h := by
    have hreplaced := replaced (.index i) value changed h
    exact ⟨hreplaced.element?_self, LawfulTree.length?_congr hreplaced.head_eq,
      fun j hne => hreplaced.element?_of_ne (by simpa using hne)⟩
  refused := refused
  focus name := (LawfulTree.field?_eq node name).symm
  put name focus h := by
    refine ⟨LawfulTree.put_field_self h, fun value => ?_⟩
    have hreplaced := replaced_put name focus h value
    exact ⟨hreplaced.child?_self, fun other hne => hreplaced.field?_of_ne (by simpa using hne),
      fun i => hreplaced.element?_of_ne (by simp), hreplaced.head_eq⟩
  shape name value changed h := by
    obtain ⟨hnode, hchanged⟩ := object name value changed h
    exact ⟨⟨hnode, apart node hnode⟩, hchanged, apart changed hchanged⟩
  apart := by
    rintro ⟨hobject, harray⟩
    simp [apart node hobject] at harray

end

/-! ## Documents -/

namespace Json

theorem isObject_iff (node : Json) : Tree.IsObject node ↔ ∃ members, node = object members := by
  constructor
  · intro h
    cases node with
    | object members => exact ⟨members, rfl⟩
    | _ => exact absurd rfl (h "" _)
  · rintro ⟨members, rfl⟩ name found
    exact nofun

theorem isArray_of_isObject (node : Json) (h : Tree.IsObject node) : Tree.isArray node = false := by
  obtain ⟨members, rfl⟩ := (isObject_iff node).mp h
  rfl

/-- Members are set in objects. -/
theorem setField_eq_ok {node value changed : Json} {name : String}
    (h : setField node name value = .ok () changed) :
    ∃ members, node = object members ∧ changed = object (setMember name value members) := by
  cases node with
  | object members =>
    cases h
    exact ⟨members, rfl, rfl⟩
  | _ => cases h

/-- Any value can be set as a member of an object, whether the object has the member or not, and as
an item that an array has. -/
def Settable (node : Json) : Location.Step → Prop
  | .field _ => ∃ members, node = object members
  | .index i => ∃ items, node = array items ∧ i < items.length

theorem setChild_ok_iff (node : Json) (step : Location.Step) (value : Json) :
    (∃ changed, Tree.setChild node step value = .ok () changed) ↔ node.Settable step := by
  cases step with
  | field name =>
    constructor
    · rintro ⟨changed, h⟩
      obtain ⟨members, rfl, -⟩ := setField_eq_ok h
      exact ⟨members, rfl⟩
    · rintro ⟨members, rfl⟩
      exact ⟨_, rfl⟩
  | index i =>
    constructor
    · rintro ⟨changed, h⟩
      obtain ⟨items, rfl, hi, -⟩ := setElement_eq_ok h
      exact ⟨items, rfl, hi⟩
    · rintro ⟨items, rfl, hi⟩
      exact ⟨_, setElement_of_lt hi value⟩

/-- What is left when a member or an item could not be set is the document that there was. -/
theorem setChild_eq_error {node value left : Json} {step : Location.Step} {e : AccessError}
    (h : Tree.setChild node step value = .error e left) : left = node := by
  cases step with
  | field name =>
    cases node <;> cases h
    all_goals rfl
  | index i =>
    cases node with
    | array items => exact (setElement_array_eq_error h).1
    | _ =>
      cases h
      rfl

theorem lensLaws (node : Json) : LensLaws node := by
  refine .of_replaced (fun step value changed => replaced_setChild)
    (fun step value e left => setChild_eq_error) (fun name focus => replaced_put) ?_
    isArray_of_isObject
  intro name value changed h
  obtain ⟨members, rfl, rfl⟩ := setField_eq_ok h
  exact ⟨(isObject_iff _).mpr ⟨_, rfl⟩, (isObject_iff _).mpr ⟨_, rfl⟩⟩

end Json

/-! ## Structured values -/

namespace Datum

theorem isObject_iff (node : Datum) :
    Tree.IsObject node ↔ ∃ schema slots, node = struct schema slots := by
  constructor
  · intro h
    cases node with
    | struct schema slots => exact ⟨schema, slots, rfl⟩
    | _ => exact absurd rfl (h "" _)
  · rintro ⟨schema, slots, rfl⟩ name found h
    rcases field?_eq_error h with ⟨hnone, -⟩ | ⟨_, _, _, _, hundeclared⟩
    · exact hnone schema slots rfl
    · cases hundeclared

theorem isArray_of_isObject (node : Datum) (h : Tree.IsObject node) :
    Tree.isArray node = false := by
  obtain ⟨schema, slots, rfl⟩ := (isObject_iff node).mp h
  rfl

/-- A value can be set in a declared field when the schema of the field admits it, and in place of
an element that it can take the place of. -/
def Settable (node : Datum) : Location.Step → Datum → Prop
  | .field name, value => ∃ schema slots field, node = struct schema slots ∧
      schema.field? name = some field ∧ field.schema.validate value = .ok ()
  | .index i, value => ∃ items current, node = array items ∧ items[i]? = some current ∧
      checkReplacement current value = .ok ()

theorem setChild_ok_iff {node : Datum} (hslots : node.Slotted) (step : Location.Step)
    (value : Datum) :
    (∃ changed, Tree.setChild node step value = .ok () changed) ↔ node.Settable step value := by
  cases step with
  | field name =>
    constructor
    · rintro ⟨changed, h⟩
      obtain ⟨schema, slots, field, rfl, hfield, hvalid, -⟩ := setField_eq_ok h
      rw [hslots.2.fieldAt_eq hfield] at hvalid
      exact ⟨schema, slots, field, rfl, hfield, hvalid⟩
    · rintro ⟨schema, slots, field, rfl, hfield, hvalid⟩
      rw [← hslots.2.fieldAt_eq hfield] at hvalid
      exact ⟨_, setField_of_validate hfield hvalid⟩
  | index i =>
    constructor
    · rintro ⟨changed, h⟩
      obtain ⟨items, current, rfl, hcurrent, hcheck, -⟩ := setElement_eq_ok h
      exact ⟨items, current, rfl, hcurrent, hcheck⟩
    · rintro ⟨items, current, rfl, hcurrent, hcheck⟩
      exact ⟨_, setElement_of_check hcurrent hcheck⟩

/-- What is left when a field or an element could not be set is the value that there was. -/
theorem setChild_eq_error {node value left : Datum} {step : Location.Step} {e : AccessError}
    (h : Tree.setChild node step value = .error e left) : left = node := by
  cases step with
  | field name =>
    cases node with
    | struct schema slots => exact (setField_struct_eq_error h).1
    | _ =>
      cases h
      rfl
  | index i =>
    cases node with
    | array items => exact (setElement_array_eq_error h).1
    | _ =>
      cases h
      rfl

theorem lensLaws {node : Datum} (hslots : node.Slotted) : LensLaws node := by
  refine .of_replaced (fun step value changed => replaced_setChild hslots)
    (fun step value e left => setChild_eq_error) (fun name focus => replaced_put hslots) ?_
    isArray_of_isObject
  intro name value changed h
  obtain ⟨schema, slots, field, rfl, -, -, rfl⟩ := setField_eq_ok h
  exact ⟨(isObject_iff _).mpr ⟨_, _, rfl⟩, (isObject_iff _).mpr ⟨_, _, rfl⟩⟩

end Datum

/-- Both flavors obey the laws, at every node: at any document, and at any structured value, whose
records have a slot for each of their fields, at the position that the field was given. Setting
succeeds at exactly the nodes, and with exactly the values, that the flavor allows. -/
theorem lensLaws_both :
    (∀ node : Json, LensLaws node ∧ ∀ step value,
      (∃ changed, Tree.setChild node step value = .ok () changed) ↔ node.Settable step) ∧
    ∀ node : Datum, node.Slotted → LensLaws node ∧ ∀ step value,
      (∃ changed, Tree.setChild node step value = .ok () changed) ↔ node.Settable step value :=
  ⟨fun node => ⟨node.lensLaws, node.setChild_ok_iff⟩,
    fun _ hslots => ⟨Datum.lensLaws hslots, Datum.setChild_ok_iff hslots⟩⟩

/-- In a record with two fields the unset one is set, and the other one is as it was. -/
theorem lensLaws_both_two_fields :
    let schema : Schema := .struct {} [⟨"a", 0, .scalar .string {}⟩, ⟨"b", 1, .scalar .int32 {}⟩]
    let node : Datum := .struct schema [some (.scalar (.string "x")), none]
    node.Slotted ∧ ∃ changed, Tree.setField node "b" (.scalar (.int32 1)) = .ok () changed ∧
      Tree.field? changed "b" = .ok (some (.scalar (.int32 1))) ∧
      Tree.field? changed "a" = Tree.field? node "a" ∧ Tree.isArray changed = false := by
  intro schema node
  have hslots : node.Slotted := ⟨rfl, rfl⟩
  obtain ⟨laws, settable⟩ := lensLaws_both.2 node hslots
  obtain ⟨changed, hset⟩ := (settable (.field "b") (.scalar (.int32 1))).mpr
    ⟨schema, _, ⟨"b", 1, .scalar .int32 {}⟩, rfl, rfl, rfl⟩
  obtain ⟨hfound, hothers⟩ := laws.setField "b" _ changed hset
  have hshape := laws.shape "b" _ changed hset
  exact ⟨hslots, changed, hset, hfound, hothers "a" (by decide), hshape.2.2⟩

end RecordCipher
