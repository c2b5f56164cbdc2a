import RecordCipher.Proofs.Record.WellFormed

/-!
# What validating a record says

Validating a record goes through the records that it holds and looks for required fields that
are not set. It enters every value in a slot, and every item of an array that is not an array
itself: the items of an array inside an array are passed over, with all that is below them.

## Main definitions

* `Datum.Part`: the parts of a value, over those items of arrays that are entered
* `Datum.Contains`, `Datum.Examines`: all parts, and the ones that validating looks at
* `Record.Complete`: the records in which all required fields are set

## Main results

* `Record.checkItems_eq_ok_iff`, `Record.checkSlots_eq_ok_iff`: one array, and one record
* `Record.checkValue_eq_ok_iff`: a value passes when the records that are looked at are complete
* `Record.validate_iff_complete`: what validating says, and when it says so of all parts
* `Record.validate_array_of_arrays`: a record that passes and holds one that is not complete
-/

namespace RecordCipher

/-! ## Parts of a value -/

namespace Datum

/-- The parts of a value: the value itself, and the parts of what is in the slots of a record
and of those items of an array that are entered. -/
inductive Part (entered : Datum → Prop) : Datum → Datum → Prop where
  /-- The value itself. -/
  | self (node : Datum) : Part entered node node
  /-- A part of an item. -/
  | item {items : List Datum} {item part : Datum} (mem : item ∈ items) (enters : entered item)
    (below : Part entered item part) : Part entered (.array items) part
  /-- A part of what is in a slot. -/
  | slot {schema : Schema} {slots : List (Option Datum)} {value part : Datum}
    (mem : some value ∈ slots) (below : Part entered value part) :
    Part entered (.struct schema slots) part

/-- Everything in a value, at whatever depth. -/
def Contains : Datum → Datum → Prop := Part fun _ => True

/-- What validating looks at: no array is entered as an item of another one. -/
def Examines : Datum → Datum → Prop := Part fun item => item.items? = none

variable {entered entered' : Datum → Prop} {node part : Datum}

theorem part_scalar_iff (value : Scalar) : Part entered (.scalar value) part ↔
    part = .scalar value := by
  constructor
  · rintro ⟨⟩
    rfl
  · rintro rfl
    exact .self _

theorem part_array_iff (items : List Datum) : Part entered (.array items) part ↔
    part = .array items ∨ ∃ item ∈ items, entered item ∧ Part entered item part := by
  constructor
  · rintro (_ | ⟨mem, enters, below⟩)
    · exact .inl rfl
    · exact .inr ⟨_, mem, enters, below⟩
  · rintro (rfl | ⟨item, mem, enters, below⟩)
    · exact .self _
    · exact .item mem enters below

theorem part_struct_iff (schema : Schema) (slots : List (Option Datum)) :
    Part entered (.struct schema slots) part ↔
      part = .struct schema slots ∨ ∃ value, some value ∈ slots ∧ Part entered value part := by
  constructor
  · rintro (_ | _ | ⟨mem, below⟩)
    · exact .inl rfl
    · exact .inr ⟨_, mem, below⟩
  · rintro (rfl | ⟨value, mem, below⟩)
    · exact .self _
    · exact .slot mem below

/-- With more items entered there are more parts. -/
theorem Part.mono (h : ∀ item, entered item → entered' item) (hpart : Part entered node part) :
    Part entered' node part := by
  induction hpart with
  | self node => exact .self node
  | item mem enters below ih => exact .item mem (h _ enters) ih
  | slot mem below ih => exact .slot mem ih

/-- Without arrays inside arrays, validating looks at everything. -/
theorem examines_of_contains
    (flat : ∀ items, node.Contains (.array items) → ∀ item ∈ items, item.items? = none)
    (h : node.Contains part) : node.Examines part := by
  -- Induction on the way to the part: what is below has no arrays inside arrays either.
  induction h with
  | self node => exact .self node
  | item mem enters below ih =>
    exact .item mem (flat _ (.self _) _ mem) (ih fun items hitems => flat items
      (.item mem enters hitems))
  | slot mem below ih => exact .slot mem (ih fun items hitems => flat items (.slot mem hitems))

end Datum

/-! ## Complete records -/

namespace Record

/-- Every required field is set. -/
def Complete (r : Record) : Prop :=
  ∀ (i : Nat) (field : Field), r.schema.fields[i]? = some field →
    field.schema.isOptional = false → ∃ value, r.slots[i]? = some (some value)

/-- Checking the items of an array checks those that are no arrays. -/
theorem checkItems_eq_ok_iff (items : List Datum) :
    checkItems items = .ok () ↔
      ∀ item ∈ items, item.items? = none → checkValue item = .ok () := by
  induction items with
  | nil => simp [checkItems]
  | cons item rest ih =>
    rw [List.forall_mem_cons, ← ih]
    cases item with
    | scalar value => simp [checkItems, checkValue]
    | array items => simp [checkItems, Datum.items?]
    | struct schema slots => simp [checkItems, checkValue, Datum.items?, check_bind_eq_ok_iff]

/-- Checking slots looks for the required fields that are not set, and checks what is set. -/
theorem checkSlots_eq_ok_iff {fields : List Field} {slots : List (Option Datum)}
    (size : slots.length = fields.length) :
    checkSlots fields slots = .ok () ↔
      (∀ (i : Nat) (field : Field), fields[i]? = some field →
        field.schema.isOptional = false → ∃ value, slots[i]? = some (some value)) ∧
      ∀ value, some value ∈ slots → checkValue value = .ok () := by
  -- Induction on the fields, each with its slot.
  induction fields generalizing slots with
  | nil =>
    obtain rfl := List.eq_nil_of_length_eq_zero size
    simp [checkSlots]
  | cons field fields ih =>
    cases slots with
    | nil => simp at size
    | cons slot slots =>
      have ih := @ih slots (by simpa using size)
      cases slot with
      | none =>
        cases hoptional : field.schema.isOptional with
        | false =>
          simp only [checkSlots, hoptional, Bool.false_eq_true, if_false, reduceCtorEq, false_iff]
          rintro ⟨complete, -⟩
          obtain ⟨value, hvalue⟩ := complete 0 field rfl hoptional
          simp at hvalue
        | true =>
          simp only [checkSlots, hoptional, if_true, ih, List.mem_cons, reduceCtorEq, false_or]
          refine and_congr_left fun _ => ⟨fun complete i => ?_, fun complete i => complete (i + 1)⟩
          cases i with
          | zero =>
            rintro _ ⟨⟩ hrequired
            simp [hoptional] at hrequired
          | succ i => exact complete i
      | some value =>
        simp only [checkSlots, check_bind_eq_ok_iff, ih, List.mem_cons, Option.some.injEq,
          forall_eq_or_imp]
        rw [and_left_comm]
        refine and_congr_left fun _ => ⟨fun complete i => ?_, fun complete i => complete (i + 1)⟩
        cases i with
        | zero => exact fun _ _ _ => ⟨value, rfl⟩
        | succ i => exact complete i

/-- A value passes when all records that are looked at in it are complete. -/
theorem checkValue_eq_ok_iff {value : Datum} (h : value.WellFormed) :
    checkValue value = .ok () ↔
      ∀ part : Record, value.Examines part.toDatum → part.Complete := by
  -- Induction on the value: its parts are itself and those of the values it holds.
  induction h with
  | scalar value =>
    simp only [checkValue, true_iff]
    intro part hpart
    cases (Datum.part_scalar_iff value).mp hpart
  | @array items wellFormed ih =>
    rw [checkValue, checkItems_eq_ok_iff]
    constructor
    · intro h part hpart
      obtain heq | ⟨item, mem, enters, below⟩ := (Datum.part_array_iff items).mp hpart
      · cases heq
      · exact (ih item mem).mp (h item mem enters) part below
    · intro h item mem enters
      exact (ih item mem).mpr fun part below => h part (.item mem enters below)
  | @struct schema slots size admitted wellFormed ih =>
    rw [checkValue, checkSlots_eq_ok_iff size]
    constructor
    · rintro ⟨complete, h⟩ part hpart
      obtain heq | ⟨value, mem, below⟩ := (Datum.part_struct_iff schema slots).mp hpart
      · cases heq
        exact complete
      · exact (ih value mem).mp (h value mem) part below
    · intro h
      refine ⟨h ⟨schema, slots⟩ (.self _), fun value mem => ?_⟩
      exact (ih value mem).mpr fun part below => h part (.slot mem below)

/-- A record passes when it is complete, and so are all the records that are looked at in it.
When it holds no arrays inside arrays, those are all the records in it. -/
theorem validate_iff_complete {r : Record} (h : r.toDatum.WellFormed) :
    (r.validate = .ok () ↔ ∀ part : Record, r.toDatum.Examines part.toDatum → part.Complete) ∧
    ((∀ items, r.toDatum.Contains (.array items) → ∀ item ∈ items, item.items? = none) →
      (r.validate = .ok () ↔
        ∀ part : Record, r.toDatum.Contains part.toDatum → part.Complete)) := by
  have examined : r.validate = .ok () ↔
      ∀ part : Record, r.toDatum.Examines part.toDatum → part.Complete := checkValue_eq_ok_iff h
  refine ⟨examined, fun flat => examined.trans (forall_congr' fun part => imp_congr_left ?_)⟩
  exact ⟨.mono fun _ _ => trivial, Datum.examines_of_contains flat⟩

/-! ## Notes that are not filled in -/

/-- A note: its text. -/
def noteSchema : Schema := .struct {} [⟨"text", 0, .scalar .string {}⟩]

/-- A note without its text. -/
def emptyNote : Record := ⟨noteSchema, [none]⟩

/-- A record of one field, an array. -/
def holding (element : Schema) (items : List Datum) : Record :=
  ⟨.struct {} [⟨"items", 0, .array {} element⟩], [some (.array items)]⟩

/-- The record is well formed with items that the schema of the elements admits. -/
theorem wellFormed_holding {element : Schema} {items : List Datum}
    (hadmits : ∀ item ∈ items, element.Admits item) (hitems : ∀ item ∈ items, item.WellFormed) :
    (holding element items).toDatum.WellFormed := by
  have created : create (holding element items).schema =
      .ok ⟨(holding element items).schema, [none]⟩ := rfl
  have conforms : ∀ value, some (.array items) = some value →
      (Schema.array {} element).Admits value ∧ value.WellFormed := by
    rintro _ ⟨⟩
    exact ⟨.array hadmits, .array hitems⟩
  exact (wellFormed_create created).setSlot 0 conforms

theorem wellFormed_emptyNote : emptyNote.toDatum.WellFormed := by
  have created : create noteSchema = .ok emptyNote := rfl
  exact wellFormed_create created

theorem not_complete_emptyNote : ¬ emptyNote.Complete := by
  intro complete
  obtain ⟨value, hvalue⟩ := complete 0 ⟨"text", 0, .scalar .string {}⟩ rfl rfl
  simp [emptyNote] at hvalue

/-- An array with an empty note in it does not pass. -/
theorem validate_array_of_notes :
    (holding noteSchema [emptyNote.toDatum]).toDatum.WellFormed ∧
    (holding noteSchema [emptyNote.toDatum]).validate ≠ .ok () := by
  have wellFormed : (holding noteSchema [emptyNote.toDatum]).toDatum.WellFormed := by
    apply wellFormed_holding
    · rintro _ (_ | ⟨_, ⟨⟩⟩)
      exact .struct
    · simpa using wellFormed_emptyNote
  refine ⟨wellFormed, fun hvalid => not_complete_emptyNote ?_⟩
  refine (validate_iff_complete wellFormed).1.mp hvalid emptyNote ?_
  exact .slot List.mem_cons_self (.item List.mem_cons_self rfl (.self _))

/-- An array with an array in it that has an empty note in it passes. -/
theorem validate_array_of_arrays :
    (holding (.array {} noteSchema) [.array [emptyNote.toDatum]]).toDatum.WellFormed ∧
    (holding (.array {} noteSchema) [.array [emptyNote.toDatum]]).validate = .ok () ∧
    (holding (.array {} noteSchema) [.array [emptyNote.toDatum]]).toDatum.Contains
      emptyNote.toDatum ∧
    ¬ emptyNote.Complete := by
  refine ⟨?_, rfl, ?_, not_complete_emptyNote⟩
  · apply wellFormed_holding
    · simp [noteSchema, emptyNote, toDatum]
    · simpa using wellFormed_emptyNote
  · exact .slot List.mem_cons_self (.item List.mem_cons_self trivial
      (.item List.mem_cons_self trivial (.self _)))

end Record

end RecordCipher
