import Mathlib.Data.List.Induction
import Mathlib.Data.List.Nodup
import RecordCipher.Record.Basic

/-!
# Fields by name and by position

A field is looked up by its name, and goes on to be known by the position that it was given when it
was declared. Its schema is the one at this position, and its value is in the slot there. Fields
are numbered as they are declared, so that the position of a field is where it stands, and
different names lead to different slots. Whatever a change of a record does, it does behind the
last check: a change that fails leaves the record as it was.

## Main definitions

* `Schema.Placed`: schemas whose fields carry the positions at which they stand

## Main results

* `Schema.eq_declareFields_of_build`: what a record schema that was built declares
* `Schema.field?_of_nodup`, `Schema.Placed.getElem?`: where a name leads
* `Record.put_of_declared`, `Record.clear_of_declared`: what a change of a declared field comes to
* `Record.put_eq_error`, `Record.clear_eq_error`: what a change that fails leaves
-/

namespace RecordCipher

/-! ## What is declared -/

/-- Fields carry their numbers in the order they are declared. -/
theorem declareFields_eq_mapIdx (declarations : List (String × Schema)) :
    declareFields declarations =
      declarations.mapIdx fun i (name, schema) => ⟨name, i, schema⟩ := by
  -- Induction on the declarations, from the last one.
  induction declarations using List.reverseRecOn with
  | nil => rfl
  | append_singleton declarations last ih =>
    rw [List.mapIdx_concat, ← ih]
    have count : (declareFields declarations).length = declarations.length := by simp [ih]
    simp [declareFields, declareField, ← count]

@[simp] theorem length_declareFields (declarations : List (String × Schema)) :
    (declareFields declarations).length = declarations.length := by
  simp [declareFields_eq_mapIdx]

@[simp] theorem map_name_declareFields (declarations : List (String × Schema)) :
    (declareFields declarations).map Declared.name = declarations.map Prod.fst :=
  List.ext_getElem (by simp) fun i _ _ => by simp [declareFields_eq_mapIdx]

/-- Whatever was declared has its field. -/
theorem exists_declared {declarations : List (String × Schema)} {name : String} {type : Schema}
    (h : (name, type) ∈ declarations) :
    ∃ field ∈ declareFields declarations, field.name = name ∧ field.schema = type := by
  obtain ⟨i, hi, heq⟩ := List.mem_iff_getElem.mp h
  refine ⟨⟨name, i, type⟩, ?_, rfl, rfl⟩
  rw [declareFields_eq_mapIdx, List.mem_mapIdx]
  exact ⟨i, hi, by rw [heq]⟩

theorem firstRepeated_eq_none {seen names : List String} (h : firstRepeated seen names = none) :
    names.Nodup ∧ ∀ name ∈ names, name ∉ seen := by
  induction names generalizing seen with
  | nil => simp
  | cons name rest ih =>
    rw [firstRepeated] at h
    split at h
    · cases h
    · next hnew =>
      obtain ⟨nodup, fresh⟩ := ih h
      have absent : name ∉ rest := by
        intro hm
        exact fresh name hm (by simp)
      refine ⟨List.nodup_cons.mpr ⟨absent, nodup⟩, ?_⟩
      rintro other hm hseen
      rcases List.mem_cons.mp hm with rfl | hm
      · exact hnew hseen
      · exact fresh other hm (List.mem_append_left _ hseen)

namespace Schema

/-- A record schema that was built has the fields that were declared, each name once. -/
theorem eq_declareFields_of_build {type : TypeCode} {traits traits' : Traits}
    {declarations : List (String × Schema)} {fields : List Field} {element : Option Schema}
    (h : build type traits declarations element = .ok (.struct traits' fields)) :
    fields = declareFields declarations ∧ (declarations.map Prod.fst).Nodup := by
  cases type with
  | scalar t =>
    simp only [build] at h
    split at h <;> cases h
  | array =>
    simp only [build] at h
    split at h
    · split at h <;> cases h
    · cases h
  | struct =>
    simp only [build, map_name_declareFields] at h
    split at h
    · cases h
    · next hnone =>
      cases h
      exact ⟨rfl, (firstRepeated_eq_none hnone).1⟩

/-! ## Names and positions -/

/-- The fields carry the positions at which they stand. -/
def Placed (schema : Schema) : Prop :=
  schema.fields.map Declared.position = List.range schema.fields.length

theorem placed_declareFields (traits : Traits) (declarations : List (String × Schema)) :
    (struct traits (declareFields declarations)).Placed := by
  refine List.ext_getElem (by simp) fun i _ _ => ?_
  simp [fields, declareFields_eq_mapIdx]

section

variable {schema : Schema} {name : String} {field : Field}

theorem field?_spec (h : schema.field? name = some field) :
    field.name = name ∧ field ∈ schema.fields :=
  ⟨by simpa using List.find?_some h, List.mem_of_find?_eq_some h⟩

theorem field?_eq_none_iff : schema.field? name = none ↔ name ∉ schema.fieldNames := by
  simp [field?, fieldNames]

/-- A name that is declared once leads to its field. -/
theorem field?_of_nodup (nodup : schema.fieldNames.Nodup) (hm : field ∈ schema.fields) :
    schema.field? field.name = some field := by
  cases hfound : schema.field? field.name with
  | none => exact absurd (List.mem_map_of_mem hm) (field?_eq_none_iff.mp hfound)
  | some found =>
    -- the field that is found has the name, too, and only one has it
    obtain ⟨hname, hfound⟩ := field?_spec hfound
    exact congrArg some (List.inj_on_of_nodup_map nodup hfound hm hname)

namespace Placed

variable (placed : schema.Placed)

include placed

theorem position_eq {i : Nat} (h : schema.fields[i]? = some field) : field.position = i := by
  obtain ⟨hi, rfl⟩ := List.getElem?_eq_some_iff.mp h
  have hposition := List.getElem_of_eq placed (by simpa using hi)
  simpa using hposition

/-- A name leads to the position of its field. -/
theorem getElem? (h : schema.field? name = some field) :
    schema.fields[field.position]? = some field := by
  obtain ⟨i, hi⟩ := List.mem_iff_getElem?.mp (field?_spec h).2
  rwa [placed.position_eq hi]

theorem position_lt (h : schema.field? name = some field) :
    field.position < schema.fields.length :=
  (List.getElem?_eq_some_iff.mp (placed.getElem? h)).1

theorem fieldAt_eq (h : schema.field? name = some field) :
    schema.fieldAt field.position = field := by
  simp [fieldAt, placed.getElem? h]

/-- Different names lead to different positions. -/
theorem position_ne {other : String} {field' : Field} (h : schema.field? name = some field)
    (h' : schema.field? other = some field') (hne : other ≠ name) :
    field.position ≠ field'.position := by
  intro heq
  -- at one position there is one field, and it has one name
  have hsame : field = field' := by
    rw [← placed.fieldAt_eq h, ← placed.fieldAt_eq h', heq]
  exact hne ((field?_spec h').1.symm.trans (hsame ▸ (field?_spec h).1))

end Placed

end

end Schema

/-! ## What is left of a record -/

namespace Record

variable {r left : Record} {name : String} {field : Field} {value : Datum} {e : RecordError}

theorem fieldNamed_of_declared (h : r.schema.field? name = some field) :
    r.fieldNamed name = .ok field := by
  simp [fieldNamed, h]

theorem fieldNamed_of_undeclared (h : r.schema.field? name = none) :
    r.fieldNamed name = .error (.unknownField name r.schema.fieldNames) := by
  simp [fieldNamed, h]

theorem get_of_declared (h : r.schema.field? name = some field) :
    r.get name = .ok (r.slot field.position) := by
  simp [get, fieldNamed_of_declared h, bind, Except.bind, pure, Except.pure]

theorem get_of_undeclared (h : r.schema.field? name = none) :
    r.get name = .error (.unknownField name r.schema.fieldNames) := by
  simp [get, fieldNamed_of_undeclared h, bind, Except.bind]

theorem put_of_undeclared (h : r.schema.field? name = none) (value : Datum) :
    r.put name value = .error (.unknownField name r.schema.fieldNames) r := by
  show (put name value).run r = _
  simp only [put, EStateM.run_bind, EStateM.run_get, run_ofExcept, fieldNamed_of_undeclared h]

/-- A value is put into the slot of a declared field, unless the schema there does not admit it. -/
theorem put_of_declared (h : r.schema.field? name = some field) (value : Datum) :
    r.put name value =
      match (r.schema.fieldAt field.position).schema.validate value with
      | .error mismatch => .error (.typeMismatch name mismatch.message) r
      | .ok () => .ok () (r.setSlot field.position (some value)) := by
  show (put name value).run r = _
  -- what was looked at is the record as it was, since nothing is changed before the checks
  simp only [put, EStateM.run_bind, EStateM.run_get, run_ofExcept, fieldNamed_of_declared h]
  cases (r.schema.fieldAt field.position).schema.validate value <;> rfl

theorem clear_of_undeclared (h : r.schema.field? name = none) :
    r.clear name = .error (.unknownField name r.schema.fieldNames) r := by
  show (clear name).run r = _
  simp only [clear, EStateM.run_bind, EStateM.run_get, run_ofExcept, fieldNamed_of_undeclared h]

/-- The slot of a declared field is emptied, unless the schema there requires a value. -/
theorem clear_of_declared (h : r.schema.field? name = some field) :
    r.clear name =
      if (r.schema.fieldAt field.position).schema.isOptional then
        .ok () (r.setSlot field.position none)
      else .error (.missingRequiredField name) r := by
  show (clear name).run r = _
  simp only [clear, EStateM.run_bind, EStateM.run_get, run_ofExcept, fieldNamed_of_declared h]
  split <;> rfl

/-- A value is put into the slot of a declared field, if the schema there admits it. -/
theorem put_eq_ok (h : r.put name value = .ok () left) :
    ∃ field, r.schema.field? name = some field ∧
      (r.schema.fieldAt field.position).schema.validate value = .ok () ∧
      left = r.setSlot field.position (some value) := by
  cases hfield : r.schema.field? name with
  | none => cases (put_of_undeclared hfield value).symm.trans h
  | some field =>
    rw [put_of_declared hfield] at h
    split at h
    · cases h
    · next hvalid =>
      cases h
      exact ⟨field, rfl, hvalid, rfl⟩

/-- The slot of a declared field is emptied. -/
theorem clear_eq_ok (h : r.clear name = .ok () left) :
    ∃ field, r.schema.field? name = some field ∧ left = r.setSlot field.position none := by
  cases hfield : r.schema.field? name with
  | none => cases (clear_of_undeclared hfield).symm.trans h
  | some field =>
    rw [clear_of_declared hfield] at h
    split at h
    · cases h
      exact ⟨field, rfl, rfl⟩
    · cases h

/-- A value that cannot be put leaves the record as it was: the field is not declared, or the schema
of the field does not admit the value. -/
theorem put_eq_error (h : r.put name value = .error e left) :
    left = r ∧ (r.schema.field? name = none ∧ e = .unknownField name r.schema.fieldNames ∨
      ∃ reason, e = .typeMismatch name reason) := by
  cases hfield : r.schema.field? name with
  | none =>
    cases (put_of_undeclared hfield value).symm.trans h
    exact ⟨rfl, .inl ⟨rfl, rfl⟩⟩
  | some field =>
    rw [put_of_declared hfield] at h
    split at h <;> cases h
    exact ⟨rfl, .inr ⟨_, rfl⟩⟩

/-- A field that cannot be cleared leaves the record as it was. -/
theorem clear_eq_error (h : r.clear name = .error e left) : left = r := by
  cases hfield : r.schema.field? name with
  | none =>
    cases (clear_of_undeclared hfield).symm.trans h
    rfl
  | some field =>
    rw [clear_of_declared hfield] at h
    split at h <;> cases h
    rfl

end Record

end RecordCipher
