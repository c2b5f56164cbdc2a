import RecordCipher.Proofs.Exchange.Alike
import RecordCipher.Proofs.Record.WellFormed
import RecordCipher.Proofs.Tree.Document

/-!
# The leaves of both flavors

In a document every text can take the place of every other. In a structured record the schema
of a field, or the element that stands there, decides between texts and bytes; the records that
are made by creating them and putting values into them hold only values that their schemas
admit, and putting leaves in place of leaves of the same kind keeps them so.

## Main definitions

* `Datum.Typed`: every field holds a value that its schema admits
* `Datum.Built`: the values made by creating records and putting values into them

## Main results

* `Schema.validate_congr`: schemas do not distinguish alike values
* `Datum.Built.sound_and_typed`: the values made so are sound and typed
-/

namespace RecordCipher

/-! ## Documents -/

namespace Json

theorem isLeaf_iff (node : Json) : isLeaf node = true ↔ ∃ s, node = string s := by
  cases node <;> simp [isLeaf, Leaf.toItem?, toItem?]

/-- All leaves of a document are of one kind. -/
theorem kind_leaf {node : Json} (h : isLeaf node = true) : Tree.kind node = "string" := by
  obtain ⟨s, rfl⟩ := (isLeaf_iff node).mp h
  rfl

/-- Whatever is there can be replaced. -/
theorem exists_setChild {node old : Json} {step : Location.Step}
    (h : Tree.child? node step = .ok (some old)) (new : Json) :
    ∃ node', Tree.setChild node step new = .ok () node' := by
  cases step with
  | field name =>
    cases node with
    | object members => exact ⟨_, rfl⟩
    | _ => cases h
  | index i =>
    cases node with
    | array items =>
      rw [child?_index_array] at h
      have hlt : i < items.length := (List.getElem?_eq_some_iff.mp (by simpa using h)).1
      exact ⟨_, setElement_of_lt hlt new⟩
    | _ => cases h

end Json

instance : LawfulLeaf Json where
  Typed _ := True
  toItem?_congr {a b} h := by cases a <;> cases b <;> first | rfl | (cases h <;> rfl)
  isLeaf_ofItem encoding item := by cases encoding <;> rfl
  sound_leaf h := by
    obtain ⟨s, rfl⟩ := (Json.isLeaf_iff _).mp h
    exact .string s
  isNull_leaf h := by
    obtain ⟨s, rfl⟩ := (Json.isLeaf_iff _).mp h
    rfl
  elements?_leaf h := by
    obtain ⟨s, rfl⟩ := (Json.isLeaf_iff _).mp h
    rfl
  child?_leaf ha hb _ step := by
    obtain ⟨s, rfl⟩ := (Json.isLeaf_iff _).mp ha
    obtain ⟨t, rfl⟩ := (Json.isLeaf_iff _).mp hb
    cases step <;> rfl
  typed_child _ _ := trivial
  typed_congr _ _ := trivial
  setChild_leaf_iff _ hchild hold hnew := by
    rw [Json.kind_leaf hold, Json.kind_leaf hnew]
    exact iff_of_true (Json.exists_setChild hchild _) rfl

/-! ## Structured values -/

namespace Datum

theorem isLeaf_iff (node : Datum) : isLeaf node = true ↔
    (∃ s, node = scalar (.string s)) ∨ ∃ raw, node = scalar (.bytes raw) := by
  cases node with
  | scalar value => cases value <;> simp [isLeaf, Leaf.toItem?, toItem?]
  | array items => simp [isLeaf, Leaf.toItem?, toItem?]
  | struct schema slots => simp [isLeaf, Leaf.toItem?, toItem?]

theorem exists_scalar_of_isLeaf {node : Datum} (h : isLeaf node = true) :
    ∃ value, node = scalar value := by
  rcases (isLeaf_iff node).mp h with ⟨s, rfl⟩ | ⟨raw, rfl⟩
  · exact ⟨_, rfl⟩
  · exact ⟨_, rfl⟩

/-- The kinds of leaves tell their types apart. -/
theorem type_eq_iff_of_isLeaf {a b : Datum} (ha : isLeaf a = true) (hb : isLeaf b = true) :
    a.type = b.type ↔ Tree.kind a = Tree.kind b := by
  rcases (isLeaf_iff a).mp ha with ⟨s, rfl⟩ | ⟨raw, rfl⟩ <;>
    rcases (isLeaf_iff b).mp hb with ⟨t, rfl⟩ | ⟨raw', rfl⟩ <;>
    simp [type, Scalar.type, Tree.kind, kind, TypeCode.name, ScalarType.name]

end Datum

theorem Alike.schema_eq {schema schema' : Schema} {slots slots' : List (Option Datum)}
    (h : Alike (Datum.struct schema slots) (Datum.struct schema' slots')) :
    schema = schema' := by
  have houtline : (Sum.inl (.struct schema) : Datum.Head ⊕ String) = .inl (.struct schema') :=
    h.outline_eq
  exact Datum.Head.struct.inj (Sum.inl.inj houtline)

/-- Alike values have the same type. -/
theorem Alike.type_eq {a b : Datum} (h : Alike a b) : a.type = b.type := by
  have hleaf := h.outline_eq
  unfold outline at hleaf
  split at hleaf <;> split at hleaf
  · next ha hb => exact (Datum.type_eq_iff_of_isLeaf ha hb).mpr (by simpa using hleaf)
  · cases hleaf
  · cases hleaf
  · exact Datum.type_congr (Sum.inl.inj hleaf)

/-- A schema does not distinguish alike values. -/
theorem Schema.Admits.congr {schema : Schema} {a b : Datum} (h : Alike a b)
    (ha : schema.Admits a) : schema.Admits b := by
  have htype := h.type_eq
  -- Induction on what the schema admits; a record is admitted whatever its fields hold.
  induction ha generalizing b with
  | scalar type_eq =>
    rw [admits_scalar_iff, ← htype, Datum.type, type_eq]
  | @array traits element items admitted ih =>
    cases b with
    | array items' =>
      refine .array fun item' hm => ?_
      obtain ⟨i, hi⟩ := List.mem_iff_getElem?.mp hm
      have hchild' : Tree.child? (Datum.array items') (.index i) = .ok (some item') := by
        rw [Datum.child?_index_array, hi]
      obtain ⟨item, hchild, halike⟩ := h.symm.child hchild'
      rw [Datum.child?_index_array] at hchild
      have hm' : item ∈ items := List.mem_of_getElem? (by simpa using hchild)
      exact ih item hm' halike.symm halike.symm.type_eq
    | _ => cases htype
  | struct =>
    cases b with
    | struct schema slots =>
      obtain rfl := h.schema_eq
      exact .struct
    | _ => cases htype

theorem Schema.validate_congr {schema : Schema} {a b : Datum} (h : Alike a b)
    (ha : schema.validate a = .ok ()) : schema.validate b = .ok () := by
  rw [validate_eq_ok_iff] at ha ⊢
  exact ha.congr h

namespace Datum

/-! ## Typed records -/

/-- Every field, at whatever location, holds a value that the schema at its position admits. -/
def Typed (node : Datum) : Prop :=
  ∀ l schema slots name field value, nodeAt? l node = .ok (some (struct schema slots)) →
    schema.field? name = some field →
    Tree.child? (struct schema slots) (.field name) = .ok (some value) →
      (schema.fieldAt field.position).schema.validate value = .ok ()

theorem Typed.child {node child : Datum} {step : Location.Step} (h : Typed node)
    (hchild : Tree.child? node step = .ok (some child)) : Typed child := by
  intro l schema slots name field value hnode
  apply h (step :: l)
  rw [nodeAt?_cons, hchild]
  exact hnode

theorem Typed.congr {a b : Datum} (h : Alike a b) (ha : Typed a) : Typed b := by
  intro l schema slots name field value hnode hfield hvalue
  obtain ⟨node', hnode', halike⟩ := h.symm.nodeAt? hnode
  cases node' with
  | struct schema' slots' =>
    obtain rfl := halike.schema_eq
    obtain ⟨value', hvalue', hlike⟩ := halike.child hvalue
    exact Schema.validate_congr hlike.symm (ha l _ _ name field value' hnode' hfield hvalue')
  | _ => cases halike.type_eq

/-- A value is typed when what is one step below it is, and its own fields hold what their
schemas admit. -/
theorem typed_of_children {node : Datum}
    (fields : ∀ schema slots name field value, node = struct schema slots →
      schema.field? name = some field →
      Tree.child? (struct schema slots) (.field name) = .ok (some value) →
        (schema.fieldAt field.position).schema.validate value = .ok ())
    (children : ∀ step child, Tree.child? node step = .ok (some child) → Typed child) :
    Typed node := by
  intro l schema slots name field value hnode hfield hvalue
  cases l with
  | nil => exact fields schema slots name field value (by simpa using hnode) hfield hvalue
  | cons step l =>
    rw [nodeAt?_cons] at hnode
    rcases hc : Tree.child? node step with e | _ | child <;> simp only [hc] at hnode
    · cases hnode
    · cases hnode
    · exact children step child hc l schema slots name field value hnode hfield hvalue

/-- A schema that admits a leaf admits the leaves of the same type. -/
theorem validate_leaf_iff {schema : Schema} {old new : Datum} (hold : isLeaf old = true)
    (hnew : isLeaf new = true) (h : schema.validate old = .ok ()) :
    schema.validate new = .ok () ↔ Tree.kind new = Tree.kind old := by
  obtain ⟨value, rfl⟩ := exists_scalar_of_isLeaf hold
  rw [← type_eq_iff_of_isLeaf hnew hold]
  cases schema with
  | scalar type traits =>
    -- only the schema of a type without parts admits leaves, and those of its type
    have htype : (scalar value).type = .scalar type := by
      simp only [Schema.validate] at h
      by_contra hne
      simp [hne] at h
    simp only [Schema.validate, htype]
    split
    · next hnew => simp [hnew]
    · next hnew => simp [hnew]
  | array traits element => simp [Schema.validate] at h
  | struct traits fields => simp [Schema.validate] at h

/-- A field with a leaf admits the leaves of the same kind, and no others. -/
theorem Typed.setField_leaf_iff {schema : Schema} {slots : List (Option Datum)} {name : String}
    {old new : Datum} (h : Typed (struct schema slots))
    (hchild : Tree.child? (struct schema slots) (.field name) = .ok (some old))
    (hold : isLeaf old = true) (hnew : isLeaf new = true) :
    (∃ node', setField (struct schema slots) name new = .ok () node') ↔
      Tree.kind new = Tree.kind old := by
  obtain ⟨_, _, field, heq, hfield, -⟩ := child?_field_eq_ok hchild
  cases heq
  have hvalid := h [] schema slots name field old (by simp) hfield hchild
  rw [← validate_leaf_iff hold hnew hvalid]
  constructor
  · rintro ⟨node', hset⟩
    obtain ⟨schema', slots', field', heq, hfield', hvalid', -⟩ := setField_eq_ok hset
    cases heq
    rw [hfield] at hfield'
    cases hfield'
    exact hvalid'
  · intro hvalid'
    exact ⟨_, setField_of_validate hfield hvalid'⟩

/-- An element that is a leaf can be replaced by the leaves of the same kind, and by no
others. -/
theorem setElement_leaf_iff {items : List Datum} {i : Nat} {old new : Datum}
    (hget : items[i]? = some old) (hold : isLeaf old = true) (hnew : isLeaf new = true) :
    (∃ node', setElement (array items) i new = .ok () node') ↔ Tree.kind new = Tree.kind old := by
  obtain ⟨value, rfl⟩ := exists_scalar_of_isLeaf hold
  rw [← type_eq_iff_of_isLeaf hnew hold]
  have hcheck : checkReplacement (scalar value) new = .ok () ↔
      new.type = (scalar value).type := by
    unfold checkReplacement
    split
    · next hne => simp [Ne.symm hne]
    · next heq => simpa using (not_not.mp heq).symm
  rw [← hcheck]
  constructor
  · rintro ⟨node', hset⟩
    obtain ⟨items', current, heq, hcurrent, hcheck', -⟩ := setElement_eq_ok hset
    cases heq
    cases hget.symm.trans hcurrent
    exact hcheck'
  · intro hcheck'
    exact ⟨_, setElement_of_check hget hcheck'⟩

/-- A leaf can be replaced by the leaves of the same kind, and by no others. -/
theorem Typed.setChild_leaf_iff {node old new : Datum} {step : Location.Step} (h : Typed node)
    (hchild : Tree.child? node step = .ok (some old)) (hold : isLeaf old = true)
    (hnew : isLeaf new = true) :
    (∃ node', Tree.setChild node step new = .ok () node') ↔ Tree.kind new = Tree.kind old := by
  cases step with
  | field name =>
    cases node with
    | scalar value => cases hchild
    | array items => cases hchild
    | struct schema slots => exact h.setField_leaf_iff hchild hold hnew
  | index i =>
    cases node with
    | scalar value => cases hchild
    | struct schema slots => cases hchild
    | array items =>
      have hget : items[i]? = some old := by simpa [child?_index_array] using hchild
      exact setElement_leaf_iff hget hold hnew

end Datum

instance : LawfulLeaf Datum where
  Typed := Datum.Typed
  toItem?_congr {a b} h := by cases a <;> cases b <;> first | rfl | (cases h <;> rfl)
  isLeaf_ofItem encoding item := by cases encoding <;> rfl
  sound_leaf h := by
    obtain ⟨value, rfl⟩ := Datum.exists_scalar_of_isLeaf h
    exact .scalar value
  isNull_leaf _ := rfl
  elements?_leaf h := by
    obtain ⟨value, rfl⟩ := Datum.exists_scalar_of_isLeaf h
    rfl
  child?_leaf ha hb hkind step := by
    obtain ⟨value, rfl⟩ := Datum.exists_scalar_of_isLeaf ha
    obtain ⟨value', rfl⟩ := Datum.exists_scalar_of_isLeaf hb
    cases step with
    | field name => exact congrArg (fun kind => Except.error (AccessError.notAnObject kind)) hkind
    | index i => rfl
  typed_child := Datum.Typed.child
  typed_congr := Datum.Typed.congr
  setChild_leaf_iff := Datum.Typed.setChild_leaf_iff

/-! ## Records made by creating them and putting values into them -/

namespace Datum

/-- The values that are made by creating records of declared schemas and putting values into
them. -/
inductive Built : Datum → Prop where
  /-- A value without parts. -/
  | scalar (value : Scalar) : Built (.scalar value)
  /-- A list of values made so. -/
  | array {items : List Datum} (built : ∀ item ∈ items, Built item) : Built (.array items)
  /-- The empty record of a schema. -/
  | create {type : TypeCode} {traits : Traits} {fields : List (String × Schema)}
    {element : Option Schema} {schema : Schema} {record : Record}
    (declared : Schema.build type traits fields element = .ok schema)
    (created : Record.create schema = .ok record) : Built record.toDatum
  /-- A record with a value put into it. -/
  | put {record record' : Record} {name : String} {value : Datum}
    (built : Built record.toDatum) (builtValue : Built value)
    (stored : record.put name value = .ok () record') : Built record'.toDatum

theorem typed_scalar (value : Scalar) : Typed (scalar value) := by
  apply typed_of_children
  · rintro _ _ _ _ _ ⟨⟩
  · intro step child hchild
    cases step <;> cases hchild

theorem setField_of_put {record record' : Record} {name : String} {value : Datum}
    (h : record.put name value = .ok () record') :
    setField record.toDatum name value = .ok () record'.toDatum := by
  have h : Record.put name value ⟨record.schema, record.slots⟩ = .ok () record' := h
  simp [setField, Record.toDatum, h, Outcome.ofPart]

/-- Putting a typed value into a typed record keeps it typed. -/
theorem Typed.put {record record' : Record} {name : String} {value : Datum}
    (hs : Sound record.toDatum) (h : Typed record.toDatum) (hvalue : Typed value)
    (hput : record.put name value = .ok () record') : Typed record'.toDatum := by
  have hset : Tree.setChild record.toDatum (.field name) value = .ok () record'.toDatum :=
    setField_of_put hput
  have replaced := LawfulTree.replaced_setChild hs hset
  obtain ⟨schema, slots, field, hrecord, hfield, hvalid, hrecord'⟩ :=
    setField_eq_ok (setField_of_put hput)
  apply typed_of_children
  · intro schema' slots' other field' found heq hfield' hfound
    rw [← heq] at hfound
    rw [hrecord'] at heq
    obtain ⟨rfl, -⟩ : schema = schema' ∧ _ = slots' := by simpa using heq
    -- the field that was set holds a value that was checked, the others are as they were
    by_cases hname : other = name
    · subst hname
      rw [replaced.child?_self] at hfound
      obtain rfl : value = found := by simpa using hfound
      rw [hfield] at hfield'
      obtain rfl : field = field' := by simpa using hfield'
      exact hvalid
    · rw [replaced.child?_of_ne (.field other) (by simpa using hname), hrecord] at hfound
      exact h [] schema slots other field' found (by simp [hrecord]) hfield' hfound
  · intro step child hchild
    by_cases hstep : step = .field name
    · rw [hstep, replaced.child?_self] at hchild
      obtain rfl : value = child := by simpa using hchild
      exact hvalue
    · rw [replaced.child?_of_ne step hstep] at hchild
      exact h.child hchild

/-- What is made by creating records and putting values into them is sound and typed. -/
theorem Built.sound_and_typed {node : Datum} (h : Built node) : Sound node ∧ Typed node := by
  -- Induction on how the value was made.
  induction h with
  | scalar value => exact ⟨.scalar value, typed_scalar value⟩
  | @array items _ ih =>
    refine ⟨.array fun item hm => (ih item hm).1, ?_⟩
    apply typed_of_children
    · rintro _ _ _ _ _ ⟨⟩
    · intro step child hchild
      cases step with
      | field name => cases hchild
      | index i =>
        rw [child?_index_array] at hchild
        exact (ih child (List.mem_of_getElem? (by simpa using hchild))).2
  | @create type traits fields element schema record declared created =>
    obtain ⟨traits', fields', rfl, rfl⟩ := Record.create_eq_ok created
    obtain ⟨rfl, nodup⟩ := Schema.eq_declareFields_of_build declared
    -- all slots are empty
    have empty : ∀ step child, Tree.child? (Record.toDatum ⟨.struct traits' (declareFields fields),
        List.replicate (declareFields fields).length none⟩) step ≠ .ok (some child) := by
      intro step child hchild
      cases step with
      | index i => cases hchild
      | field name =>
        obtain ⟨_, _, field, heq, -, hslot⟩ := child?_field_eq_ok hchild
        cases heq
        rw [Option.join_eq_some_iff] at hslot
        exact absurd (List.eq_of_mem_replicate (List.mem_of_getElem? hslot)) (by simp)
    constructor
    · refine .struct (by simp [Schema.fields]) (Schema.placed_declareFields traits' fields)
        (by simpa [Schema.fieldNames, Schema.fields] using nodup) ?_
      intro value hm
      exact absurd (List.eq_of_mem_replicate hm) (by simp)
    · apply typed_of_children
      · rintro schema slots name field value heq - hvalue
        rw [← heq] at hvalue
        exact absurd hvalue (empty _ _)
      · intro step child hchild
        exact absurd hchild (empty _ _)
  | @put record record' name value _ _ stored ih ihValue =>
    refine ⟨?_, ih.2.put ih.1 ihValue.2 stored⟩
    have hset : Tree.setChild record.toDatum (.field name) value = .ok () record'.toDatum :=
      setField_of_put stored
    exact LawfulTree.sound_setChild ih.1 ihValue.1 hset

end Datum

end RecordCipher
