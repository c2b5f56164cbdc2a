import RecordCipher.Proofs.Plan.Typing

/-!
# Plans that schemas allow

What a task does to structured values can be told from their schema. A field that the schema
declares can be asked for, and what is found in it conforms to the schema of the field. Elements
can be selected from an array, unless they are arrays themselves, and they conform to the schema of
the elements. A plan whose tasks can be followed from schema to schema can therefore be read along
in every value that conforms to the first one, however many nodes the tasks reach, and finds values
that conform to the last one. What is not set is not found, whether it is optional or required.

## Main definitions

* `Schema.Conforms`: the values that a schema admits, with all that they hold
* `Task.schema?`, `Schema.along?`: the schema behind a task, and behind several

## Main results

* `Schema.Conforms.fits`: a task can be followed where it has a schema
* `Schema.Conforms.child`: what it selects conforms to this schema
* `Schema.Conforms.readable`, `Schema.Conforms.reaches`: the same for several tasks
* `Plan.read_of_conforms`: reading along a plan
-/

namespace RecordCipher

/-- A value conforms to a schema: the schema admits it, and in every record it holds, at whatever
depth, the schemas of the fields admit what is in them. -/
structure Schema.Conforms (schema : Schema) (node : Datum) : Prop where
  admits : schema.Admits node
  wellFormed : node.WellFormed

/-- The schema of what a task selects in values of a schema: the field has to be declared, and its
schema is the one at its position, or the elements must not be arrays. -/
def Task.schema? : Task → Schema → Option Schema
  | .field name, schema =>
    (schema.field? name).map fun field => (schema.fieldAt field.position).schema
  | .elements _, .array _ element => if element.type = .array then none else some element
  | .elements _, _ => none

/-- Where fields are numbered, as in every schema that was built, the schema behind the task for
a field is the one that the field was declared with. -/
theorem Task.schema?_field_eq {schema : Schema} (placed : schema.Placed) (name : String) :
    (Task.field name).schema? schema = (schema.field? name).map Declared.schema := by
  cases hfield : schema.field? name with
  | none => simp [schema?, hfield]
  | some field => simp [schema?, hfield, placed.fieldAt_eq hfield]

/-- The schema that tasks end at, one after another. -/
def Schema.along? : Schema → List Task → Option Schema
  | schema, [] => some schema
  | schema, task :: rest => (task.schema? schema).bind fun below => below.along? rest

theorem Schema.Admits.type_eq {schema : Schema} {node : Datum} (h : schema.Admits node) :
    node.type = schema.type := by
  cases h with
  | scalar type_eq => exact congrArg TypeCode.scalar type_eq
  | array => rfl
  | struct => rfl

/-- The arrays are the values of one type. -/
theorem Datum.isArray_iff (node : Datum) : Tree.isArray node = true ↔ node.type = .array := by
  cases node <;> simp [Tree.isArray, Tree.elements?, items?, type]

theorem Task.schema?_elements_eq_some_iff {selection : Selection} {schema below : Schema} :
    (Task.elements selection).schema? schema = some below ↔
      ∃ traits, schema = .array traits below ∧ below.type ≠ .array := by
  cases schema with
  | array traits element =>
    rw [schema?]
    split
    · next harray =>
      simp only [reduceCtorEq, false_iff]
      rintro ⟨_, ⟨⟩, hne⟩
      exact hne harray
    · next hne =>
      constructor
      · rintro ⟨⟩
        exact ⟨traits, rfl, hne⟩
      · rintro ⟨_, ⟨⟩, -⟩
        rfl
  | _ =>
    simp only [schema?, reduceCtorEq, false_iff]
    rintro ⟨_, ⟨⟩, -⟩

namespace Schema.Conforms

variable {schema below target : Schema} {node : Datum} {task : Task} {tasks : List Task}

/-! ## One task -/

/-- A value that conforms to the schema of an array is an array of what conforms to the schema of
its elements. -/
theorem eq_array {traits : Traits} (h : (Schema.array traits below).Conforms node) :
    ∃ items, node = .array items ∧ ∀ item ∈ items, below.Conforms item := by
  obtain ⟨hadmits, hwell⟩ := h
  cases hadmits with
  | @array _ _ items admitted =>
    rw [Datum.wellFormed_array_iff] at hwell
    exact ⟨items, rfl, fun item hm => ⟨admitted item hm, hwell item hm⟩⟩

/-- A value that conforms to a schema which declares a field is a record of that schema, and what is
in the field conforms to the schema at its position. -/
theorem eq_struct {name : String} {field : Field} (h : schema.Conforms node)
    (hfield : schema.field? name = some field) :
    ∃ slots, node = .struct schema slots ∧
      ∀ value, slots[field.position]? = some (some value) →
        (schema.fieldAt field.position).schema.Conforms value := by
  obtain ⟨hadmits, hwell⟩ := h
  cases hadmits with
  | scalar => cases hfield
  | array => cases hfield
  | @struct traits fields slots =>
    refine ⟨slots, rfl, fun value hslot => ?_⟩
    obtain ⟨hvalue, hwell⟩ := hwell.slot hslot
    exact ⟨hvalue, hwell⟩

/-- A task can be followed at the values of a schema behind which it has one. -/
theorem fits (h : schema.Conforms node) (htask : task.schema? schema = some below) :
    task.Fits node := by
  cases task with
  | field name =>
    obtain ⟨field, hfield, -⟩ := Option.map_eq_some_iff.mp htask
    obtain ⟨slots, rfl, -⟩ := h.eq_struct hfield
    exact ⟨_, Datum.child?_field_of_declared hfield⟩
  | elements selection =>
    obtain ⟨traits, rfl, hflat⟩ := Task.schema?_elements_eq_some_iff.mp htask
    obtain ⟨items, rfl, hitems⟩ := h.eq_array
    refine ⟨items, rfl, fun i item hget _ _ => ?_⟩
    have hadmits := (hitems item (List.mem_of_getElem? hget)).admits
    rw [Bool.eq_false_iff, Ne, Datum.isArray_iff, hadmits.type_eq]
    exact hflat

/-- What a task selects conforms to the schema behind it. -/
theorem child (h : schema.Conforms node) (htask : task.schema? schema = some below)
    {step : Location.Step} (hstep : task.selects step = true) {child : Datum}
    (hchild : Tree.child? node step = .ok (some child)) : below.Conforms child := by
  cases task with
  | field name =>
    obtain ⟨field, hfield, rfl⟩ := Option.map_eq_some_iff.mp htask
    obtain ⟨slots, rfl, hslots⟩ := h.eq_struct hfield
    obtain rfl := (Task.selects_field_iff name step).mp hstep
    rw [Datum.child?_field_of_declared hfield, Except.ok.injEq, Option.join_eq_some_iff] at hchild
    exact hslots child hchild
  | elements selection =>
    obtain ⟨traits, rfl, -⟩ := Task.schema?_elements_eq_some_iff.mp htask
    obtain ⟨items, rfl, hitems⟩ := h.eq_array
    obtain ⟨i, rfl, -⟩ := (Task.selects_elements_iff selection step).mp hstep
    rw [Datum.child?_index_array, Except.ok.injEq] at hchild
    exact hitems child (List.mem_of_getElem? hchild)

/-! ## All tasks -/

/-- Tasks can be followed below the values of a schema from which they can be followed. -/
theorem readable (h : schema.Conforms node) (htasks : schema.along? tasks = some target) :
    Readable tasks node := by
  -- Induction on the tasks: those after the first one start from the schema behind it.
  induction tasks generalizing schema node with
  | nil => trivial
  | cons task rest ih =>
    obtain ⟨below, hbelow, hrest⟩ := Option.bind_eq_some_iff.mp htasks
    refine ⟨h.fits hbelow, fun step child hstep hchild _ => ?_⟩
    exact ih (h.child hbelow hstep hchild) hrest

/-- Tasks lead to what conforms to the schema that they end at. -/
theorem reaches (h : schema.Conforms node) (htasks : schema.along? tasks = some target)
    {l : Location} {reached : Datum} (hreach : Reaches tasks node l reached) :
    target.Conforms reached := by
  induction tasks generalizing schema node l with
  | nil =>
    obtain rfl : schema = target := Option.some.inj htasks
    exact hreach.2 ▸ h
  | cons task rest ih =>
    obtain ⟨below, hbelow, hrest⟩ := Option.bind_eq_some_iff.mp htasks
    cases l with
    | nil => exact hreach.elim
    | cons step further =>
      obtain ⟨hstep, child, hchild, -, hreach⟩ := hreach
      exact ih (h.child hbelow hstep hchild) hrest hreach

end Schema.Conforms

/-- A plan whose tasks can be followed from the schema of a value can be read along in it, and all
that is found conforms to the schema that the tasks end at. -/
theorem Plan.read_of_conforms {plan : Plan} {schema target : Schema} {root : Datum}
    (htasks : schema.along? plan.tasks = some target) (hroot : schema.Conforms root) :
    ∃ values, plan.read root = .ok values ∧
      ∀ path node, values.get? path = some node → target.Conforms node := by
  obtain ⟨values, hread⟩ := (plan.read_ok_iff root).mpr (hroot.readable htasks)
  refine ⟨values, hread, fun path node hget => ?_⟩
  obtain ⟨l, -, hreach⟩ := (Plan.get?_of_read hread path node).mp hget
  exact hroot.reaches htasks hreach

/-- A line whose text is not set, although its schema requires one. -/
def blankLine : Record := ⟨.struct {} [⟨"text", 0, .scalar .string {}⟩], [none]⟩

/-- The texts of the lines of a sheet that has no title, and one of whose lines is blank. -/
theorem Plan.read_of_conforms_lines :
    ∃ values, (Plan.mk "$.lines[*].text" [.field "lines", .elements .every, .field "text"]).read
        (.struct sheetSchema [none, some (.array [sheetLine "x", blankLine.toDatum])]) =
          .ok values ∧
      values.entries = [("$.lines[0].text", .scalar (.string "x"))] ∧
      ∀ path node, values.get? path = some node → (Schema.scalar .string {}).Conforms node := by
  have hcreate : Record.create blankLine.schema = .ok blankLine := rfl
  have blank := Record.wellFormed_create hcreate
  have hput : blankLine.edit (.put "text" (.scalar (.string "x"))) =
      .ok () ⟨blankLine.schema, [some (.scalar (.string "x"))]⟩ := rfl
  have line := Record.wellFormed_edit blank (by simp) hput
  have hsheet : Record.create sheetSchema = .ok ⟨sheetSchema, [none, none]⟩ := rfl
  have hlines : Record.edit (.put "lines" (.array [sheetLine "x", blankLine.toDatum]))
      ⟨sheetSchema, [none, none]⟩ =
        .ok () ⟨sheetSchema, [none, some (.array [sheetLine "x", blankLine.toDatum])]⟩ := rfl
  have lines : (Datum.array [sheetLine "x", blankLine.toDatum]).WellFormed := by
    rw [Datum.wellFormed_array_iff]
    exact List.forall_mem_cons.mpr ⟨line, List.forall_mem_cons.mpr ⟨blank, by simp⟩⟩
  have sheet := Record.wellFormed_edit (Record.wellFormed_create hsheet) (by simp [lines]) hlines
  have htasks : sheetSchema.along?
      (Plan.mk "$.lines[*].text" [.field "lines", .elements .every, .field "text"]).tasks =
        some (.scalar .string {}) := rfl
  obtain ⟨values, hread, hvalues⟩ := read_of_conforms htasks ⟨.struct, sheet⟩
  obtain rfl : _ = values := Except.ok.inj hread
  exact ⟨_, rfl, rfl, hvalues⟩

end RecordCipher
