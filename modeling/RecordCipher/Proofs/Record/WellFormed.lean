import RecordCipher.Proofs.Computation
import RecordCipher.Proofs.Tree.Structured

/-!
# Well-formed values

A value is checked before it is put into a record: it has to be of the type that the schema of
the field declares, and so have the items of an array. The check does not look into the records
that a value holds. They only have to carry the declared schema, and what is in them was checked
when it was put there. In a well-formed value every field has been checked, however deep it is.

## Main definitions

* `Schema.Admits`: the values that a schema admits
* `Datum.WellFormed`: the values in which every field holds what its schema admits
* `Record.Edit`, `Record.editAll`: putting values into a record, and clearing fields

## Main results

* `Schema.validate_eq_ok_iff`: the check of a value decides whether its schema admits it
* `Datum.WellFormed.setSlot`: a slot can be filled with what the schema of its field admits
* `Record.wellFormed_editAll`: putting well-formed values and clearing fields keeps a record
  well formed
-/

namespace RecordCipher

/-! ## What a schema admits -/

/-- The values that a schema admits: those of its type, arrays of what the schema of the elements
admits, and the records that carry the schema itself. -/
inductive Schema.Admits : Schema → Datum → Prop where
  /-- A value without parts, of the declared type. -/
  | scalar {type : ScalarType} {traits : Traits} {value : Scalar} (type_eq : value.type = type) :
    Admits (.scalar type traits) (.scalar value)
  /-- An array of admitted items. -/
  | array {traits : Traits} {element : Schema} {items : List Datum}
    (admitted : ∀ item ∈ items, Admits element item) :
    Admits (.array traits element) (.array items)
  /-- A record of the very schema, whatever it holds. -/
  | struct {traits : Traits} {fields : List Field} {slots : List (Option Datum)} :
    Admits (.struct traits fields) (.struct (.struct traits fields) slots)

theorem validateItems_eq_ok_iff (check : Datum → Except Mismatch Unit) (i : Nat)
    (items : List Datum) :
    validateItems check i items = .ok () ↔ ∀ item ∈ items, check item = .ok () := by
  induction items generalizing i with
  | nil => simp [validateItems]
  | cons item rest ih =>
    rw [validateItems, List.forall_mem_cons, ← ih (i + 1)]
    cases check item with
    | error reason => simp
    | ok => simp

namespace Schema

@[simp] theorem admits_scalar_iff (type : ScalarType) (traits : Traits) (value : Datum) :
    (scalar type traits).Admits value ↔ value.type = .scalar type := by
  constructor
  · rintro ⟨rfl⟩
    rfl
  · intro h
    cases value with
    | scalar value => exact .scalar (by simpa [Datum.type] using h)
    | array items => simp [Datum.type] at h
    | struct schema slots => simp [Datum.type] at h

@[simp] theorem admits_array_iff (traits : Traits) (element : Schema) (items : List Datum) :
    (array traits element).Admits (.array items) ↔ ∀ item ∈ items, element.Admits item := by
  constructor
  · rintro ⟨⟩
    assumption
  · exact .array

@[simp] theorem admits_struct_iff (traits : Traits) (fields : List Field)
    (schema : Schema) (slots : List (Option Datum)) :
    (struct traits fields).Admits (.struct schema slots) ↔ schema = struct traits fields := by
  constructor
  · rintro ⟨⟩
    rfl
  · rintro rfl
    exact .struct

/-- The check of a value decides whether its schema admits it. -/
theorem validate_eq_ok_iff (schema : Schema) (value : Datum) :
    schema.validate value = .ok () ↔ schema.Admits value := by
  -- Cases of the schema; an array goes on with the schema of its elements.
  match schema with
  | scalar type traits =>
    rw [admits_scalar_iff, validate]
    split
    · next heq => simp [heq]
    · next hne => simp [hne]
  | array traits element =>
    cases value with
    | array items =>
      rw [admits_array_iff, validate, validateItems_eq_ok_iff]
      exact forall₂_congr fun item _ => validate_eq_ok_iff element item
    | scalar value =>
      simp only [validate, reduceCtorEq, false_iff]
      rintro ⟨⟩
    | struct schema slots =>
      simp only [validate, reduceCtorEq, false_iff]
      rintro ⟨⟩
  | struct traits fields =>
    cases value with
    | struct schema slots =>
      rw [admits_struct_iff, validate]
      split
      · next heq => simp [heq]
      · next hne => simp [hne]
    | scalar value =>
      simp only [validate, reduceCtorEq, false_iff]
      rintro ⟨⟩
    | array items =>
      simp only [validate, reduceCtorEq, false_iff]
      rintro ⟨⟩

end Schema

/-! ## Well-formed values -/

namespace Datum

/-- Every record, at whatever depth, has one slot for each field that its schema declares, and
in every slot that is set a value that the schema of the field admits. -/
inductive WellFormed : Datum → Prop where
  /-- A value without parts. -/
  | scalar (value : Scalar) : WellFormed (.scalar value)
  /-- A list of well-formed values. -/
  | array {items : List Datum} (wellFormed : ∀ item ∈ items, WellFormed item) :
    WellFormed (.array items)
  /-- A record with admitted and well-formed values in its slots. -/
  | struct {schema : Schema} {slots : List (Option Datum)}
    (size : slots.length = schema.fields.length)
    (admitted : ∀ (i : Nat) (field : Field) (value : Datum),
      schema.fields[i]? = some field → slots[i]? = some (some value) → field.schema.Admits value)
    (wellFormed : ∀ value, some value ∈ slots → WellFormed value) :
    WellFormed (.struct schema slots)

@[simp] theorem wellFormed_scalar (value : Scalar) : WellFormed (.scalar value) := .scalar value

@[simp] theorem wellFormed_array_iff (items : List Datum) :
    WellFormed (.array items) ↔ ∀ item ∈ items, WellFormed item := by
  constructor
  · rintro ⟨⟩
    assumption
  · exact .array

section Slots

variable {schema : Schema} {slots : List (Option Datum)}

/-- A well-formed record holds well-formed values, which the schemas at their positions admit. -/
theorem WellFormed.slot (h : WellFormed (.struct schema slots)) {i : Nat} {value : Datum}
    (hslot : slots[i]? = some (some value)) :
    (schema.fieldAt i).schema.Admits value ∧ WellFormed value := by
  cases h with
  | struct size admitted wellFormed =>
    have hi : i < schema.fields.length := size ▸ (List.getElem?_eq_some_iff.mp hslot).1
    have hfield : schema.fields[i]? = some (schema.fieldAt i) := by simp [Schema.fieldAt, hi]
    exact ⟨admitted i _ value hfield hslot, wellFormed value (List.mem_of_getElem? hslot)⟩

/-- A slot of a well-formed record can be emptied, and filled with a well-formed value that the
schema at its position admits. -/
theorem WellFormed.setSlot (h : WellFormed (.struct schema slots)) (position : Nat)
    {content : Option Datum}
    (hcontent : ∀ value, content = some value →
      (schema.fieldAt position).schema.Admits value ∧ WellFormed value) :
    WellFormed (.struct schema (slots.set position content)) := by
  cases h with
  | struct size admitted wellFormed =>
    refine .struct (by simpa using size) ?_ ?_
    · intro i field value hfield hslot
      by_cases hi : i = position
      · -- the slot that was set is that of the field
        subst hi
        obtain ⟨-, hset⟩ : i < slots.length ∧ content = some value := by
          simpa [List.getElem?_set] using hslot
        have hfieldAt : schema.fieldAt i = field := by simp [Schema.fieldAt, hfield]
        exact hfieldAt ▸ (hcontent value hset).1
      · rw [List.getElem?_set_ne (Ne.symm hi)] at hslot
        exact admitted i field value hfield hslot
    · intro value hm
      rcases List.mem_or_eq_of_mem_set hm with hm | heq
      · exact wellFormed value hm
      · exact (hcontent value heq.symm).2

end Slots

end Datum

/-! ## Changing records -/

namespace Record

/-- An empty record has a slot for each field of its schema, and nothing in any of them. -/
theorem create_eq_ok {schema : Schema} {r : Record} (h : create schema = .ok r) :
    ∃ traits fields, schema = .struct traits fields ∧
      r = ⟨.struct traits fields, List.replicate fields.length none⟩ := by
  cases schema with
  | struct traits fields =>
    obtain rfl : _ = r := by simpa [create] using h
    exact ⟨traits, fields, rfl, rfl⟩
  | _ => cases h

/-- The empty record of a schema is well formed. -/
theorem wellFormed_create {schema : Schema} {r : Record} (h : create schema = .ok r) :
    r.toDatum.WellFormed := by
  obtain ⟨traits, fields, rfl, rfl⟩ := create_eq_ok h
  -- all slots are empty
  have empty : ∀ value, some value ∉ List.replicate fields.length (none : Option Datum) := by
    intro value hm
    exact absurd (List.eq_of_mem_replicate hm) (by simp)
  refine .struct (by simp [Schema.fields]) ?_ ?_
  · intro i field value _ hslot
    exact absurd (List.mem_of_getElem? hslot) (empty value)
  · intro value hm
    exact absurd hm (empty value)

/-- A change to one field of a record. -/
inductive Edit where
  /-- A value is put into the field. -/
  | put (name : String) (value : Datum)
  /-- The field is cleared. -/
  | clear (name : String)

/-- Makes a change. -/
def edit : Edit → EStateM RecordError Record Unit
  | .put name value => put name value
  | .clear name => clear name

/-- What changes leave of a record, one after another, whether they are made or refused. -/
def editAll (r : Record) : List Edit → Record
  | [] => r
  | change :: rest => (Outcome.left (r.edit change)).editAll rest

/-- A change that is refused leaves the record as it was. -/
theorem edit_eq_error {r left : Record} {change : Edit} {e : RecordError}
    (h : r.edit change = .error e left) : left = r := by
  cases change with
  | put name value => exact (put_eq_error h).1
  | clear name => exact clear_eq_error h

/-- A change keeps a record well formed, if what is put into it is well formed. -/
theorem wellFormed_edit {r r' : Record} {change : Edit} (hr : r.toDatum.WellFormed)
    (hvalue : ∀ name value, change = .put name value → value.WellFormed)
    (h : r.edit change = .ok () r') : r'.toDatum.WellFormed := by
  cases change with
  | put name value =>
    obtain ⟨field, -, hvalid, rfl⟩ := put_eq_ok h
    apply hr.setSlot
    rintro _ ⟨⟩
    exact ⟨(Schema.validate_eq_ok_iff _ _).mp hvalid, hvalue name value rfl⟩
  | clear name =>
    obtain ⟨field, -, rfl⟩ := clear_eq_ok h
    apply hr.setSlot
    rintro _ ⟨⟩

/-- Putting well-formed values and clearing fields keeps a record well formed. -/
theorem wellFormed_editAll {r : Record} {changes : List Edit} (hr : r.toDatum.WellFormed)
    (hvalues : ∀ name value, Edit.put name value ∈ changes → value.WellFormed) :
    (r.editAll changes).toDatum.WellFormed := by
  induction changes generalizing r with
  | nil => exact hr
  | cons change rest ih =>
    have others : ∀ name value, Edit.put name value ∈ rest → value.WellFormed := by
      intro name value hm
      exact hvalues name value (List.mem_cons_of_mem _ hm)
    refine ih ?_ others
    cases hedit : r.edit change with
    | error e left => exact edit_eq_error hedit ▸ hr
    | ok _ changed =>
      refine wellFormed_edit hr ?_ hedit
      rintro name value rfl
      exact hvalues name value List.mem_cons_self

end Record

end RecordCipher
