import RecordCipher.Proofs.Record.Fields
import RecordCipher.Proofs.Tree.Lawful
import RecordCipher.Record.Tree

/-!
# Structured values are lawful trees

The fields of a record are found by name: the name leads to the position that the field was given,
and the position to a slot. Different names lead to different slots, so that setting a field changes
what is found for its name only.

## Main definitions

* `Datum.Sound`: every record has one slot for each field of a schema that declares each name
  once and numbers its fields
* `Datum.Slotted`: a value, and if it is a record it has a slot for each of its numbered fields
* `Datum.Head`: what a value is apart from its items and fields

## Main results

* `Datum.child?_field_eq_ok`, `Datum.field?_eq_error`: where a field is found, and where it is not
* `Datum.replaced_setSlot`: filling a slot changes the field of its name only
* `Datum.setField_struct_eq_error`, `Datum.setElement_array_eq_error`: what is left of a value that
  refuses another one
* `Datum.ext`: a structured value is determined by the heads at all locations
-/

namespace RecordCipher

namespace Datum

/-! ## Heads and soundness -/

/-- What a value is apart from its items and fields. -/
inductive Head where
  /-- A value without parts. -/
  | scalar (value : Scalar)
  /-- A list of values, of some length. -/
  | array (length : Nat)
  /-- A record of a schema. -/
  | struct (schema : Schema)
  deriving DecidableEq

/-- The head of a value. -/
def head : Datum → Head
  | scalar value => .scalar value
  | array items => .array items.length
  | struct schema _ => .struct schema

theorem type_congr {a b : Datum} (h : a.head = b.head) : a.type = b.type := by
  cases a <;> cases b <;> simp_all [head, type]

/-- Every record has one slot for each field that its schema declares, and the schema declares
each name once and numbers its fields. -/
inductive Sound : Datum → Prop where
  /-- A value without parts. -/
  | scalar (value : Scalar) : Sound (.scalar value)
  /-- A list of sound values. -/
  | array {items : List Datum} (sound : ∀ item ∈ items, Sound item) : Sound (.array items)
  /-- A record with sound values in its slots. -/
  | struct {schema : Schema} {slots : List (Option Datum)}
    (size : slots.length = schema.fields.length) (placed : schema.Placed)
    (nodup : schema.fieldNames.Nodup) (sound : ∀ value, some value ∈ slots → Sound value) :
    Sound (.struct schema slots)

@[simp] theorem sound_scalar (value : Scalar) : Sound (.scalar value) := .scalar value

@[simp] theorem sound_array_iff (items : List Datum) :
    Sound (.array items) ↔ ∀ item ∈ items, Sound item := by
  constructor
  · rintro ⟨⟩
    assumption
  · exact .array

@[simp] theorem sound_struct_iff (schema : Schema) (slots : List (Option Datum)) :
    Sound (.struct schema slots) ↔ slots.length = schema.fields.length ∧ schema.Placed ∧
      schema.fieldNames.Nodup ∧ ∀ value, some value ∈ slots → Sound value := by
  constructor
  · rintro ⟨⟩
    exact ⟨‹_›, ‹_›, ‹_›, ‹_›⟩
  · rintro ⟨size, placed, nodup, sound⟩
    exact .struct size placed nodup sound

/-- A record has a slot for each field that its schema declares, as it was created with, and the
schema numbers its fields, as it was built. -/
def Slotted : Datum → Prop
  | struct schema slots => slots.length = schema.fields.length ∧ schema.Placed
  | _ => True

theorem Sound.slotted {node : Datum} (h : Sound node) : node.Slotted := by
  cases h with
  | struct size placed _ _ => exact ⟨size, placed⟩
  | _ => trivial

instance : TreeHead Datum := ⟨Head, head⟩

section Children

variable {schema : Schema} {slots : List (Option Datum)} {name : String} {field : Field}

theorem child?_field_of_declared (h : schema.field? name = some field) :
    Tree.child? (struct schema slots) (.field name) = .ok slots[field.position]?.join := by
  simp [Tree.child?, Tree.field?, field?, Record.get_of_declared (r := ⟨schema, slots⟩) h,
    Record.slot, Except.mapError]

/-- Names that are declared once lead to the slots of their fields. -/
theorem child?_field_of_placed (placed : schema.Placed) (nodup : schema.fieldNames.Nodup) {i : Nat}
    (h : schema.fields[i]? = some field) :
    Tree.child? (struct schema slots) (.field field.name) = .ok slots[i]?.join := by
  rw [child?_field_of_declared (Schema.field?_of_nodup nodup (List.mem_of_getElem? h)),
    placed.position_eq h]

theorem child?_field_of_undeclared (h : schema.field? name = none) :
    Tree.child? (struct schema slots) (.field name) =
      .error (.undeclaredField name schema.fieldNames) := by
  simp [Tree.child?, Tree.field?, field?, Record.get_of_undeclared (r := ⟨schema, slots⟩) h,
    Except.mapError, RecordError.toAccess]

/-- Fields are found in records, of schemas that declare them. -/
theorem child?_field_eq_ok {node : Datum} {found : Option Datum}
    (h : Tree.child? node (.field name) = .ok found) : ∃ schema slots field,
      node = struct schema slots ∧ schema.field? name = some field ∧
        slots[field.position]?.join = found := by
  cases node with
  | struct schema slots =>
    cases hfield : schema.field? name with
    | none => cases (child?_field_of_undeclared hfield).symm.trans h
    | some field =>
      rw [child?_field_of_declared hfield] at h
      exact ⟨schema, slots, field, rfl, hfield, Except.ok.inj h⟩
  | _ => cases h

/-- A field is refused for lack of fields, or by a record whose schema does not declare it; what is
listed then are the fields that the schema does declare. -/
theorem field?_eq_error {node : Datum} {e : AccessError} (h : Tree.field? node name = .error e) :
    (∀ schema slots, node ≠ struct schema slots) ∧ e = .notAnObject node.kind ∨
      ∃ schema slots, node = struct schema slots ∧ name ∉ schema.fieldNames ∧
        e = .undeclaredField name schema.fieldNames := by
  cases node with
  | struct schema slots =>
    have h : Tree.child? (struct schema slots) (.field name) = .error e := h
    cases hfield : schema.field? name with
    | none =>
      have hname := Schema.field?_eq_none_iff.mp hfield
      rw [child?_field_of_undeclared hfield] at h
      exact .inr ⟨schema, slots, rfl, hname, (Except.error.inj h).symm⟩
    | some field => cases (child?_field_of_declared hfield).symm.trans h
  | scalar value => exact .inl ⟨nofun, (Except.error.inj h).symm⟩
  | array items => exact .inl ⟨nofun, (Except.error.inj h).symm⟩

theorem child?_index_array (items : List Datum) (i : Nat) :
    Tree.child? (array items) (.index i) = .ok items[i]? := rfl

end Children

/-- A structured value is determined by the heads at all locations. -/
theorem ext {a b : Datum} (ha : Sound a) (hb : Sound b) (same : ∀ l, headAt l a = headAt l b) :
    a = b := by
  have h : head a = head b := head_eq_of_headAt same
  -- Induction on the first value; the heads show what the second one can be.
  induction ha generalizing b with
  | scalar => cases hb <;> simp_all [head]
  | @array items _ ih =>
    cases hb with
    | @array items' sound' =>
      have length : items.length = items'.length := by simpa [head] using h
      refine congrArg array (List.ext_getElem length fun i hi hi' => ?_)
      have hx : Tree.child? (array items) (.index i) = .ok (some items[i]) := by
        rw [child?_index_array, List.getElem?_eq_getElem hi]
      have hy : Tree.child? (array items') (.index i) = .ok (some items'[i]) := by
        rw [child?_index_array, List.getElem?_eq_getElem hi']
      have below := headAt_child_congr same hx hy
      exact ih _ (List.getElem_mem hi) (sound' _ (List.getElem_mem hi')) below
        (head_eq_of_headAt below)
    | _ => simp [head] at h
  | @struct schema slots size placed nodup _ ih =>
    cases hb with
    | @struct schema' slots' size' _ _ sound' =>
      obtain rfl : schema = schema' := by simpa [head] using h
      refine congrArg (struct schema) (List.ext_getElem (by omega) fun i hi hi' => ?_)
      -- the slot at `i` is that of the field at `i`, which its name leads to
      obtain ⟨field, hf⟩ : ∃ field, schema.fields[i]? = some field :=
        ⟨_, List.getElem?_eq_getElem (by omega)⟩
      have hx : Tree.child? (struct schema slots) (.field field.name) = .ok slots[i] := by
        simp [child?_field_of_placed placed nodup hf, hi]
      have hy : Tree.child? (struct schema slots') (.field field.name) = .ok slots'[i] := by
        simp [child?_field_of_placed placed nodup hf, hi']
      have hs := same [.field field.name]
      rw [headAt_cons, headAt_cons, hx, hy] at hs
      cases hv : slots[i] with
      | none => cases hv' : slots'[i] <;> simp [hv, hv'] at hs ⊢
      | some value =>
        cases hv' : slots'[i] with
        | none => simp [hv, hv'] at hs
        | some value' =>
          rw [hv] at hx
          rw [hv'] at hy
          have below := headAt_child_congr same hx hy
          rw [ih value (hv ▸ List.getElem_mem hi) (sound' value' (hv' ▸ List.getElem_mem hi'))
            below (head_eq_of_headAt below)]
    | _ => simp [head] at h

/-! ## The laws -/

section Laws

variable {schema : Schema} {slots : List (Option Datum)} {name : String} {field : Field}

/-- Filling a slot changes the field of its name only. -/
theorem replaced_setSlot (hslots : Slotted (struct schema slots))
    (hf : schema.field? name = some field) (value : Datum) :
    Replaced (struct schema slots) (.field name) value
      (struct schema (slots.set field.position (some value))) := by
  obtain ⟨size, placed⟩ := hslots
  have hlt : field.position < slots.length := size ▸ placed.position_lt hf
  refine ⟨rfl, ?_, fun other hne => ?_⟩
  · simp [child?_field_of_declared hf, hlt]
  · cases other with
    | index i => rfl
    | field k =>
      have hk : k ≠ name := fun hk => hne (by rw [hk])
      -- another name is not declared, or leads to another slot
      cases hf' : schema.field? k with
      | none => rw [child?_field_of_undeclared hf', child?_field_of_undeclared hf']
      | some field' =>
        have hpos := placed.position_ne hf hf' hk
        simp [child?_field_of_declared hf', List.getElem?_set_ne hpos]

theorem replaced_set {items : List Datum} {i : Nat} (hi : i < items.length) (value : Datum) :
    Replaced (array items) (.index i) value (array (items.set i value)) := by
  refine ⟨?_, ?_, fun other hne => ?_⟩
  · simp [RecordCipher.head, head]
  · rw [child?_index_array, List.getElem?_set_self hi]
  · cases other with
    | field k => rfl
    | index j =>
      have hj : i ≠ j := fun hj => hne (by rw [hj])
      rw [child?_index_array, List.getElem?_set_ne hj, child?_index_array]

/-- A declared field can be set to any value that the schema at its position admits. -/
theorem setField_of_validate {value : Datum} (hf : schema.field? name = some field)
    (hv : (schema.fieldAt field.position).schema.validate value = .ok ()) :
    setField (struct schema slots) name value =
      .ok () (struct schema (slots.set field.position (some value))) := by
  simp [setField, Record.put_of_declared (r := ⟨schema, slots⟩) hf, hv, Outcome.ofPart,
    Record.setSlot, Record.toDatum]

/-- A field is set in a record that declares it, to a value that the schema at its position
admits. -/
theorem setField_eq_ok {node value node' : Datum} (h : setField node name value = .ok () node') :
    ∃ schema slots field, node = struct schema slots ∧ schema.field? name = some field ∧
      (schema.fieldAt field.position).schema.validate value = .ok () ∧
      node' = struct schema (slots.set field.position (some value)) := by
  cases node with
  | struct schema slots =>
    obtain ⟨_, hput, rfl⟩ := Outcome.ofPart_eq_ok h
    obtain ⟨field, hf, hv, rfl⟩ := Record.put_eq_ok hput
    exact ⟨schema, slots, field, rfl, hf, hv, rfl⟩
  | _ => cases h

/-- A record that refuses a value is left as it was: it does not declare the field, or the value is
rejected. -/
theorem setField_struct_eq_error {value left : Datum} {e : AccessError}
    (h : setField (struct schema slots) name value = .error e left) :
    left = struct schema slots ∧
      (schema.field? name = none ∧ e = .undeclaredField name schema.fieldNames ∨
        ∃ reason, e = .rejected reason) := by
  obtain ⟨e', r, hput, rfl, rfl⟩ := Outcome.ofPart_eq_error h
  obtain ⟨rfl, ⟨hfield, rfl⟩ | ⟨reason, rfl⟩⟩ := Record.put_eq_error hput
  · exact ⟨rfl, .inl ⟨hfield, rfl⟩⟩
  · exact ⟨rfl, .inr ⟨_, rfl⟩⟩

/-- A value that cannot take the place of an element is rejected. -/
theorem checkReplacement_eq_error {current value : Datum} {e : AccessError}
    (h : checkReplacement current value = .error e) : ∃ reason, e = .rejected reason := by
  unfold checkReplacement at h
  split at h
  · exact ⟨_, (Except.error.inj h).symm⟩
  · split at h
    · split at h
      · cases h
      · exact ⟨_, (Except.error.inj h).symm⟩
    · cases h

/-- An item is overwritten, unless there is none or the value cannot take its place. -/
theorem overwrite_eq (i : Nat) (value : Datum) (items : List Datum) :
    overwrite i value items =
      match items[i]? with
      | none => .error (outOfRange i items.length) items
      | some current =>
        match checkReplacement current value with
        | .error e => .error e items
        | .ok () => .ok () (items.set i value) := by
  show (overwrite i value).run items = _
  simp only [overwrite, EStateM.run_bind, EStateM.run_get]
  cases items[i]? with
  | none => rfl
  | some current =>
    simp only [EStateM.run_bind, run_ofExcept]
    cases checkReplacement current value <;> rfl

/-- An element can be overwritten by any value that can take its place. -/
theorem setElement_of_check {items : List Datum} {i : Nat} {current value : Datum}
    (hget : items[i]? = some current) (hcheck : checkReplacement current value = .ok ()) :
    setElement (array items) i value = .ok () (array (items.set i value)) := by
  simp [setElement, overwrite_eq, hget, hcheck, Outcome.ofPart]

/-- An element is overwritten by a value that can take its place. -/
theorem setElement_eq_ok {node value node' : Datum} {i : Nat}
    (h : setElement node i value = .ok () node') :
    ∃ items current, node = array items ∧ items[i]? = some current ∧
      checkReplacement current value = .ok () ∧ node' = array (items.set i value) := by
  cases node with
  | array items =>
    obtain ⟨items', hitems, rfl⟩ := Outcome.ofPart_eq_ok h
    rw [overwrite_eq] at hitems
    cases hc : items[i]? with
    | none => simp [hc] at hitems
    | some current =>
      cases hr : checkReplacement current value with
      | error e => simp [hc, hr] at hitems
      | ok =>
        obtain rfl : items.set i value = items' := by simpa [hc, hr] using hitems
        exact ⟨items, current, rfl, hc, hr, rfl⟩
  | _ => cases h

/-- An array that rejects a value is left as it was. -/
theorem setElement_array_eq_error {items : List Datum} {value left : Datum} {i : Nat}
    {e : AccessError} (h : setElement (array items) i value = .error e left) :
    left = array items ∧ ∃ reason, e = .rejected reason := by
  obtain ⟨_, left', hitems, rfl, rfl⟩ := Outcome.ofPart_eq_error h
  rw [overwrite_eq] at hitems
  split at hitems
  · cases hitems
    exact ⟨rfl, _, rfl⟩
  · split at hitems
    · next hcheck =>
      cases hitems
      exact ⟨rfl, checkReplacement_eq_error hcheck⟩
    · cases hitems

/-- Setting a field or an element replaces it. -/
theorem replaced_setChild {node value node' : Datum} {step : Location.Step}
    (hslots : node.Slotted) (h : Tree.setChild node step value = .ok () node') :
    Replaced node step value node' := by
  cases step with
  | field name =>
    obtain ⟨schema, slots, field, rfl, hf, -, rfl⟩ := setField_eq_ok h
    exact replaced_setSlot hslots hf value
  | index i =>
    obtain ⟨items, current, rfl, hc, -, rfl⟩ := setElement_eq_ok h
    exact replaced_set (List.getElem?_eq_some_iff.mp hc).1 value

theorem exists_setElement {node current value : Datum} {i : Nat}
    (hget : Tree.element? node i = some current)
    (hcheck : checkReplacement current value = .ok ()) :
    ∃ node', setElement node i value = .ok () node' := by
  cases node with
  | array items => exact ⟨_, setElement_of_check hget hcheck⟩
  | _ => cases hget

theorem focusField?_eq_some {node : Datum} {f : Focus Datum Datum}
    (h : focusField? node name = .ok (some f)) :
    ∃ schema slots field old, node = struct schema slots ∧ schema.field? name = some field ∧
      slots[field.position]? = some (some old) ∧
      f = ⟨old, fun value => struct schema (slots.set field.position (some value))⟩ := by
  cases node with
  | struct schema slots =>
    cases hf : schema.field? name with
    | none => simp [focusField?, hf] at h
    | some field =>
      simp only [focusField?, hf, Record.slot, Except.ok.injEq, Option.map_eq_some_iff,
        Option.join_eq_some_iff] at h
      obtain ⟨old, hslot, rfl⟩ := h
      exact ⟨schema, slots, field, old, rfl, hf, hslot, rfl⟩
  | _ => cases h

/-- What is put in focus takes the place of the field. -/
theorem replaced_put {node : Datum} {f : Focus Datum Datum} (hslots : node.Slotted)
    (h : focusField? node name = .ok (some f)) (value : Datum) :
    Replaced node (.field name) value (f.put value) := by
  obtain ⟨schema, slots, field, old, rfl, hf, -, rfl⟩ := focusField?_eq_some h
  exact replaced_setSlot hslots hf value

theorem focusElements?_eq_some {node : Datum} {f : Focus Datum (List Datum)}
    (h : focusElements? node = some f) : ∃ items, node = array items ∧ f = ⟨items, array⟩ := by
  cases node with
  | array items => exact ⟨items, rfl, by simpa [focusElements?] using h.symm⟩
  | _ => cases h

theorem Sound.setSlot (h : Sound (.struct schema slots)) {value : Datum} (hv : Sound value)
    (position : Nat) : Sound (.struct schema (slots.set position (some value))) := by
  cases h with
  | struct size placed nodup sound =>
    refine .struct (by simpa using size) placed nodup fun x hm => ?_
    rcases List.mem_or_eq_of_mem_set hm with hm | heq
    · exact sound x hm
    · obtain rfl : x = value := by simpa using heq
      exact hv

theorem Sound.set {items : List Datum} (h : Sound (.array items)) {value : Datum}
    (hv : Sound value) (i : Nat) : Sound (.array (items.set i value)) := by
  cases h with
  | array sound =>
    refine .array fun item hm => ?_
    rcases List.mem_or_eq_of_mem_set hm with hm | rfl
    · exact sound item hm
    · exact hv

theorem Sound.child {node child : Datum} {step : Location.Step} (h : Sound node)
    (hc : Tree.child? node step = .ok (some child)) : Sound child := by
  cases h with
  | scalar => cases step <;> cases hc
  | array sound =>
    cases step with
    | field name => cases hc
    | index i => exact sound _ (List.mem_of_getElem? (by simpa [child?_index_array] using hc))
  | @struct schema slots _ _ _ sound =>
    cases step with
    | index i => cases hc
    | field name =>
      obtain ⟨_, _, field, heq, -, hslot⟩ := child?_field_eq_ok hc
      cases heq
      exact sound _ (List.mem_of_getElem? (Option.join_eq_some_iff.mp hslot))

end Laws

end Datum

/-- Structured values are lawful trees. -/
instance : LawfulTree Datum where
  Sound := Datum.Sound
  kind_congr {a b} h := by cases a <;> cases b <;> first | rfl | (cases h <;> rfl)
  isNull_congr _ := rfl
  length?_congr {a b} h := by
    cases a <;> cases b <;> first | rfl | cases h | exact congrArg some (Datum.Head.array.inj h)
  elements?_of_isNull h := by cases h
  field?_of_isNull h := by cases h
  field?_eq node name := by
    cases node with
    | struct schema slots =>
      have hchild : Tree.field? (Datum.struct schema slots) name =
        Tree.child? (Datum.struct schema slots) (.field name) := rfl
      cases hf : schema.field? name with
      | none =>
        rw [hchild, Datum.child?_field_of_undeclared hf]
        simp [Tree.focusField?, Datum.focusField?, hf, Except.map]
      | some field =>
        rw [hchild, Datum.child?_field_of_declared hf]
        simp [Tree.focusField?, Datum.focusField?, hf, Except.map, Record.slot,
          Function.comp_def]
    | _ => rfl
  elements?_eq node := by cases node <;> rfl
  put_field_self h := by
    obtain ⟨schema, slots, field, old, rfl, -, hslot, rfl⟩ := Datum.focusField?_eq_some h
    obtain ⟨hlt, hget⟩ := List.getElem?_eq_some_iff.mp hslot
    simp [← hget]
  put_elements_self h := by
    obtain ⟨items, rfl, rfl⟩ := Datum.focusElements?_eq_some h
    rfl
  focusField?_put h value := by
    obtain ⟨schema, slots, field, old, rfl, hf, hslot, rfl⟩ := Datum.focusField?_eq_some h
    obtain ⟨hlt, -⟩ := List.getElem?_eq_some_iff.mp hslot
    simp [Tree.focusField?, Datum.focusField?, hf, Record.slot, hlt]
  focusElements?_put h items := by
    obtain ⟨_, rfl, rfl⟩ := Datum.focusElements?_eq_some h
    rfl
  head_put_field h value := by
    obtain ⟨schema, slots, field, old, rfl, -, -, rfl⟩ := Datum.focusField?_eq_some h
    rfl
  replaced_put_field hs := Datum.replaced_put hs.slotted
  head_put_elements h items hlen := by
    obtain ⟨_, rfl, rfl⟩ := Datum.focusElements?_eq_some h
    exact congrArg Datum.Head.array hlen
  field?_put_elements h items name := by
    obtain ⟨_, rfl, rfl⟩ := Datum.focusElements?_eq_some h
    rfl
  replaced_setChild hs := Datum.replaced_setChild hs.slotted
  sound_child := Datum.Sound.child
  sound_put_field hs h hv := by
    obtain ⟨schema, slots, field, old, rfl, hf, hslot, rfl⟩ := Datum.focusField?_eq_some h
    exact hs.setSlot hv field.position
  sound_put_elements h hitems := by
    obtain ⟨_, rfl, rfl⟩ := Datum.focusElements?_eq_some h
    exact .array hitems
  sound_setChild {node value node' step} hs hv h := by
    cases step with
    | field name =>
      obtain ⟨schema, slots, field, rfl, hf, -, rfl⟩ := Datum.setField_eq_ok h
      exact hs.setSlot hv field.position
    | index i =>
      obtain ⟨items, current, rfl, hc, -, rfl⟩ := Datum.setElement_eq_ok h
      exact hs.set hv i
  ext := Datum.ext

end RecordCipher
