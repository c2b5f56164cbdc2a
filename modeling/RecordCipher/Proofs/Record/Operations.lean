import Mathlib.Data.List.Induction
import RecordCipher.Proofs.Record.WellFormed

/-!
# Records as finite maps

A record is worked on by name: values are put into its fields, fields are cleared, and fields are
looked at. The names lead to the positions that the fields were given, and the positions to slots
in a list beside them. Whatever the operations and whichever of them are refused, the list keeps a
slot for every declared field, and a look at a field shows what was put into it last, if it was not
cleared since. An operation works on the record in place, and leaves one also when it is refused:
the one that there was.

## Main definitions

* `Record.Operation`, `Record.perform`: operations, and what one of them comes to
* `Record.step`, `Record.after`: the record that one operation leaves, and that several leave
* `Record.Shaped`: a schema with numbered fields, and a slot for each of them
* `Record.LastPut`: the value that was put into a field last and not cleared since

## Main results

* `Record.perform_eq_error`: what is left when an operation is refused
* `Record.get_edit`: what a change shows in a field
* `Record.Shaped.step`, `Record.Shaped.after`: operations keep the shape of a record
* `Record.get_after`: what a run of operations shows in a field
* `Record.checked_map`: which operations are refused, and what the others show
-/

namespace RecordCipher

namespace Record

/-! ## Operations -/

/-- The field that a change is for. -/
def Edit.name : Edit → String
  | .put name _ | .clear name => name

/-- What a change leaves in its field. -/
def Edit.content : Edit → Option Datum
  | .put _ value => some value
  | .clear _ => none

theorem Edit.content_eq_some_iff {change : Edit} (value : Datum) :
    change.content = some value ↔ change = .put change.name value := by
  cases change <;> simp [content, name]

/-- An operation on a record. -/
inductive Operation where
  /-- A field is changed. -/
  | change (edit : Edit)
  /-- The value of a field is looked at. -/
  | get (name : String)

namespace Operation

/-- The field that an operation is for. -/
def name : Operation → String
  | change edit => edit.name
  | get name => name

/-- Whether an operation is there to change a field. -/
def Changes (field : String) : Operation → Prop
  | change edit => edit.name = field
  | get _ => False

end Operation

/-- What an operation shows, and the record it leaves. -/
def perform : Operation → EStateM RecordError Record (Option Datum)
  | .change change => do
    edit change
    return none
  | .get name => do
    ofExcept ((← MonadState.get).get name)

/-- Whether an operation is not refused. -/
def Performs (r : Record) (operation : Operation) : Prop :=
  ∃ content left, r.perform operation = .ok content left

/-- The record that an operation leaves, whether it is refused or not. -/
def step (r : Record) (operation : Operation) : Record := Outcome.left (r.perform operation)

/-- The record that operations leave, one after another. -/
def after (r : Record) (operations : List Operation) : Record := operations.foldl step r

/-- In a run of operations the value was put into a field, and no operation behind changed the
field. -/
def LastPut (r : Record) (operations : List Operation) (name : String) (value : Datum) : Prop :=
  ∃ before behind, operations = before ++ .change (.put name value) :: behind ∧
    (r.after before).Performs (.change (.put name value)) ∧
    ∀ middle operation rest, behind = middle ++ operation :: rest → operation.Changes name →
      ¬ (r.after (before ++ .change (.put name value) :: middle)).Performs operation

section

variable {r r' : Record} {change : Edit} {name : String}

@[simp] theorem after_snoc (operations : List Operation) (operation : Operation) :
    r.after (operations ++ [operation]) = (r.after operations).step operation := by
  simp [after]

/-! ## One operation -/

theorem perform_change (r : Record) (change : Edit) :
    r.perform (.change change) =
      match r.edit change with
      | .ok () left => .ok none left
      | .error e left => .error e left := by
  show (perform (.change change)).run r = _
  simp only [perform, EStateM.run_bind, EStateM.run_pure]
  unfold EStateM.run
  cases edit change r <;> rfl

theorem perform_get (r : Record) (name : String) :
    r.perform (.get name) =
      match r.get name with
      | .ok content => .ok content r
      | .error e => .error e r := by
  show (perform (.get name)).run r = _
  simp only [perform, EStateM.run_bind, EStateM.run_get, run_ofExcept]
  cases r.get name <;> rfl

/-- A change is made in the slot of the declared field. -/
theorem edit_eq_ok (h : r.edit change = .ok () r') : ∃ field,
    r.schema.field? change.name = some field ∧ r' = r.setSlot field.position change.content := by
  cases change with
  | put name value =>
    obtain ⟨field, hfield, -, hr'⟩ := put_eq_ok h
    exact ⟨field, hfield, hr'⟩
  | clear name => exact clear_eq_ok h

/-- An operation that is refused leaves the record as it was. -/
theorem perform_eq_error {operation : Operation} {e : RecordError}
    (h : r.perform operation = .error e r') : r' = r := by
  cases operation with
  | change change =>
    rw [perform_change] at h
    split at h
    · cases h
    · next hedit =>
      cases h
      exact edit_eq_error hedit
  | get name =>
    rw [perform_get] at h
    split at h <;> cases h
    rfl

/-- An operation makes a change, or it leaves the record as it is: when it is refused, and when
it is not there to change anything. -/
theorem step_cases (r : Record) (operation : Operation) :
    (∃ change, operation = .change change ∧ r.edit change = .ok () (r.step operation)) ∨
      (r.step operation = r ∧ ∀ name, operation.Changes name → ¬ r.Performs operation) := by
  cases operation with
  | change change =>
    cases hedit : r.edit change with
    | ok _ left => exact .inl ⟨change, rfl, by simp [step, perform_change, hedit, Outcome.left]⟩
    | error e left =>
      -- the record that is left is the one that there was
      obtain rfl := edit_eq_error hedit
      exact .inr (by simp [step, Performs, perform_change, hedit, Outcome.left])
  | get name =>
    refine .inr ⟨?_, fun _ hchanges => hchanges.elim⟩
    cases hget : r.get name <;> simp [step, perform_get, hget, Outcome.left]

end

/-! ## The shape of a record -/

/-- A record of a schema, with a slot for each of the fields that the schema declares and
numbers. -/
structure Shaped (schema : Schema) (r : Record) : Prop where
  /-- The record is of the schema. -/
  schema_eq : r.schema = schema
  /-- The fields carry the positions at which they stand. -/
  placed : schema.Placed
  /-- There are as many slots as fields. -/
  size : r.slots.length = schema.fields.length

section

variable {schema : Schema} {r r' : Record} {change : Edit}

theorem Shaped.position_lt (hr : Shaped schema r) {name : String} {field : Field}
    (h : schema.field? name = some field) : field.position < r.slots.length :=
  hr.size ▸ hr.placed.position_lt h

theorem shaped_create (placed : schema.Placed) (h : create schema = .ok r) : Shaped schema r := by
  obtain ⟨traits, fields, rfl, rfl⟩ := create_eq_ok h
  exact ⟨rfl, placed, by simp [Schema.fields]⟩

theorem Shaped.edit (hr : Shaped schema r) (h : r.edit change = .ok () r') :
    Shaped schema r' := by
  obtain ⟨field, -, rfl⟩ := edit_eq_ok h
  exact ⟨hr.schema_eq, hr.placed, by simpa [setSlot] using hr.size⟩

/-- An operation keeps the shape of a record, whether it is refused or not. -/
theorem Shaped.step (hr : Shaped schema r) (operation : Operation) :
    Shaped schema (r.step operation) := by
  rcases r.step_cases operation with ⟨change, -, hedit⟩ | ⟨hsame, -⟩
  · exact hr.edit hedit
  · rwa [hsame]

/-- A run of operations keeps the shape of a record. -/
theorem Shaped.after (hr : Shaped schema r) (operations : List Operation) :
    Shaped schema (r.after operations) := by
  induction operations generalizing r with
  | nil => exact hr
  | cons operation rest ih => exact ih (hr.step operation)

/-- After a change its field shows what the change left there, and every other field what it
showed before. -/
theorem get_edit (hr : Shaped schema r) (h : r.edit change = .ok () r') (name : String) :
    r'.get name = if change.name = name then .ok change.content else r.get name := by
  obtain ⟨field, hfield, rfl⟩ := edit_eq_ok h
  split
  · next heq =>
    subst heq
    have hlt := hr.position_lt (hr.schema_eq ▸ hfield)
    rw [get_of_declared (r := r.setSlot _ _) hfield]
    simp [slot, setSlot, hlt]
  · next hne =>
    cases hother : r.schema.field? name with
    | none => rw [get_of_undeclared hother, get_of_undeclared (r := r.setSlot _ _) hother]; rfl
    | some other =>
      -- another name leads to another slot
      have placed : r.schema.Placed := hr.schema_eq ▸ hr.placed
      have hposition := placed.position_ne hother hfield hne
      rw [get_of_declared hother, get_of_declared (r := r.setSlot _ _) hother]
      simp [slot, setSlot, List.getElem?_set_ne hposition.symm]

end

/-! ## What a field shows -/

section

variable {schema : Schema} {r : Record} {operations : List Operation} {name : String}
  {value : Datum}

theorem not_lastPut_nil : ¬ r.LastPut [] name value := by
  rintro ⟨before, behind, heq, -⟩
  simp at heq

/-- What was put last after one more operation: what this one puts, or what was put last before,
unless this one changes the field. -/
theorem lastPut_snoc_iff (operation : Operation) :
    r.LastPut (operations ++ [operation]) name value ↔
      (operation = .change (.put name value) ∧ (r.after operations).Performs operation) ∨
        (r.LastPut operations name value ∧
          ¬ (operation.Changes name ∧ (r.after operations).Performs operation)) := by
  constructor
  · rintro ⟨before, behind, heq, hput, hlast⟩
    rcases behind.eq_nil_or_concat with rfl | ⟨middle, last, rfl⟩
    · obtain ⟨rfl, hop⟩ := List.append_inj' heq rfl
      obtain rfl := List.singleton_inj.mp hop
      exact .inl ⟨rfl, hput⟩
    · rw [List.concat_eq_append, ← List.cons_append, ← List.append_assoc] at heq
      obtain ⟨rfl, hop⟩ := List.append_inj' heq rfl
      obtain rfl := List.singleton_inj.mp hop
      refine .inr ⟨⟨before, middle, rfl, hput, fun middle' other rest hmiddle => ?_⟩, ?_⟩
      · exact hlast middle' other (rest ++ [operation]) (by simp [hmiddle])
      · rintro ⟨hchanges, hperforms⟩
        exact hlast middle operation [] (by simp) hchanges hperforms
  · rintro (⟨rfl, hput⟩ | ⟨⟨before, behind, rfl, hput, hlast⟩, hkept⟩)
    · exact ⟨operations, [], rfl, hput, by simp⟩
    · refine ⟨before, behind ++ [operation], by simp, hput, ?_⟩
      intro middle other rest heq hchanges
      rcases rest.eq_nil_or_concat with rfl | ⟨rest, last, rfl⟩
      · obtain ⟨rfl, hop⟩ := List.append_inj' heq rfl
        obtain rfl := List.singleton_inj.mp hop
        exact fun hperforms => hkept ⟨hchanges, hperforms⟩
      · rw [List.concat_eq_append, ← List.cons_append, ← List.append_assoc] at heq
        obtain ⟨rfl, -⟩ := List.append_inj' heq rfl
        exact hlast middle other rest rfl hchanges

/-- A field of a record that was empty shows, after operations, the value that was put into it last
and not cleared since. -/
theorem get_after (hr : Shaped schema r)
    (hempty : ∀ name value, r.get name ≠ .ok (some value)) (operations : List Operation)
    (name : String) (value : Datum) :
    (r.after operations).get name = .ok (some value) ↔ r.LastPut operations name value := by
  induction operations using List.reverseRecOn with
  | nil => exact iff_of_false (hempty name value) not_lastPut_nil
  | append_singleton operations operation ih =>
    rw [after_snoc, lastPut_snoc_iff, ← ih]
    rcases (r.after operations).step_cases operation with ⟨change, rfl, hedit⟩ | ⟨hsame, hidle⟩
    · have hperforms : (r.after operations).Performs (.change change) := by
        simp [Performs, perform_change, hedit]
      rw [get_edit (hr.after operations) hedit]
      by_cases hname : change.name = name
      · simp [hname, hperforms, Operation.Changes, Edit.content_eq_some_iff]
      · have hother : change ≠ .put name value := by
          rintro rfl
          exact hname rfl
        simp [hname, hother, Operation.Changes]
    · have hnot : ¬ (operation.Changes name ∧ (r.after operations).Performs operation) :=
        fun h => hidle name h.1 h.2
      have hother : ¬ (operation = .change (.put name value) ∧
          (r.after operations).Performs operation) := by
        rintro ⟨rfl, hperforms⟩
        exact hidle name rfl hperforms
      rw [hsame]
      simp [hnot, hother]

end

/-! ## What is refused -/

section

variable {schema : Schema} {r : Record} {name : String} {field : Field}

theorem perform_of_undeclared {operation : Operation}
    (h : r.schema.field? operation.name = none) :
    r.perform operation = .error (.unknownField operation.name r.schema.fieldNames) r := by
  rcases operation with (⟨name, value⟩ | ⟨name⟩) | ⟨name⟩ <;>
    replace h : r.schema.field? name = none := h
  · rw [perform_change, edit, put_of_undeclared h]
    rfl
  · rw [perform_change, edit, clear_of_undeclared h]
    rfl
  · rw [perform_get, get_of_undeclared h]
    rfl

theorem perform_get_of_declared (h : r.schema.field? name = some field) :
    r.perform (.get name) = .ok (r.slot field.position) r := by
  simp [perform_get, get_of_declared h]

/-- A value is refused if and only if the schema of the field does not admit it. -/
theorem perform_put_eq_error_iff (placed : r.schema.Placed)
    (h : r.schema.field? name = some field) (value : Datum) (e : RecordError) :
    r.perform (.change (.put name value)) = .error e r ↔
      ∃ mismatch, field.schema.validate value = .error mismatch ∧
        e = .typeMismatch name mismatch.message := by
  rw [perform_change, edit, put_of_declared h, placed.fieldAt_eq h]
  cases field.schema.validate value <;> simp [eq_comm (a := e)]

/-- Clearing is refused if and only if the field is required. -/
theorem perform_clear_eq_error_iff (placed : r.schema.Placed)
    (h : r.schema.field? name = some field) (e : RecordError) :
    r.perform (.change (.clear name)) = .error e r ↔
      field.schema.isOptional = false ∧ e = .missingRequiredField name := by
  rw [perform_change, edit, clear_of_declared h, placed.fieldAt_eq h]
  cases field.schema.isOptional <;> simp [eq_comm (a := e)]

/-- An operation is refused as one for an unknown field if and only if no field of its name is
declared. -/
theorem perform_eq_unknownField_iff (placed : r.schema.Placed) (operation : Operation)
    (name : String) (declared : List String) :
    r.perform operation = .error (.unknownField name declared) r ↔
      operation.name ∉ r.schema.fieldNames ∧ name = operation.name ∧
        declared = r.schema.fieldNames := by
  cases hfield : r.schema.field? operation.name with
  | none =>
    have habsent := Schema.field?_eq_none_iff.mp hfield
    rw [perform_of_undeclared hfield]
    simp [habsent, eq_comm (b := name), eq_comm (b := declared)]
  | some field =>
    have hpresent : operation.name ∈ r.schema.fieldNames := by
      by_contra habsent
      cases hfield.symm.trans (Schema.field?_eq_none_iff.mpr habsent)
    refine iff_of_false (fun hrefused => ?_) (fun h => h.1 hpresent)
    -- the other reasons to refuse an operation are other failures
    rcases operation with (⟨name, value⟩ | ⟨name⟩) | ⟨name⟩
    · obtain ⟨_, -, heq⟩ := (perform_put_eq_error_iff placed hfield value _).mp hrefused
      cases heq
    · obtain ⟨-, heq⟩ := (perform_clear_eq_error_iff placed hfield _).mp hrefused
      cases heq
    · cases (perform_get_of_declared hfield).symm.trans hrefused

/-- A look at a field leaves the record as it is, and shows what is in the field. -/
theorem perform_get_eq_ok_iff (content : Option Datum) :
    r.perform (.get name) = .ok content r ↔ r.get name = .ok content := by
  cases hget : r.get name <;> simp [perform_get, hget]

/-- The fields of an empty record show nothing. -/
theorem get_create_ne (h : create schema = .ok r) (name : String) (value : Datum) :
    r.get name ≠ .ok (some value) := by
  obtain ⟨traits, fields, rfl, rfl⟩ := create_eq_ok h
  cases hfield : (Schema.struct traits fields).field? name with
  | none => simp [get_of_undeclared (r := ⟨_, _⟩) hfield]
  | some field =>
    rw [get_of_declared (r := ⟨_, _⟩) hfield]
    simp only [slot, List.getElem?_replicate]
    split <;> simp

end

/-- Whatever operations there were on a record that was empty, of a schema that was declared: a
name leads to the field at the position that this field was given, and there is a slot at this
position. An operation is refused as one for an unknown field, and this is what it is refused with,
if and only if no field of the name is declared. Besides, a value is refused if and only if the
schema of the field does not admit it, and clearing if and only if the field is required. The record
that is left when an operation is refused is the one that there was. And a look at a field shows
a value if and only if this value was the last one put and the field was not cleared since. -/
theorem checked_map {traits : Traits} {declarations : List (String × Schema)}
    {element : Option Schema} {schema : Schema}
    (h : Schema.build .struct traits declarations element = .ok schema) :
    ∃ r, create schema = .ok r ∧ ∀ operations : List Operation,
      let reached := r.after operations
      (∀ name field, reached.schema.field? name = some field →
        reached.schema.fields[field.position]? = some field ∧
          field.position < reached.slots.length) ∧
      (∀ operation name declared,
        reached.perform operation = .error (.unknownField name declared) reached ↔
          operation.name ∉ declarations.map Prod.fst ∧ name = operation.name ∧
            declared = declarations.map Prod.fst) ∧
      (∀ name type, (name, type) ∈ declarations →
        (∀ value e, reached.perform (.change (.put name value)) = .error e reached ↔
          ∃ mismatch, type.validate value = .error mismatch ∧
            e = .typeMismatch name mismatch.message) ∧
        (∀ e, reached.perform (.change (.clear name)) = .error e reached ↔
          type.isOptional = false ∧ e = .missingRequiredField name) ∧
        ∃ content, reached.perform (.get name) = .ok content reached) ∧
      (∀ operation e left, reached.perform operation = .error e left → left = reached) ∧
      ∀ name value, reached.perform (.get name) = .ok (some value) reached ↔
        r.LastPut operations name value := by
  obtain ⟨traits', fields, rfl⟩ : ∃ traits' fields, schema = .struct traits' fields := by
    simp only [Schema.build] at h
    split at h <;> cases h
    exact ⟨_, _, rfl⟩
  obtain ⟨rfl, nodup⟩ := Schema.eq_declareFields_of_build h
  have placed := Schema.placed_declareFields traits' declarations
  have names : (Schema.struct traits' (declareFields declarations)).fieldNames =
      declarations.map Prod.fst := map_name_declareFields declarations
  obtain ⟨r, hr⟩ : ∃ r, create (.struct traits' (declareFields declarations)) = .ok r :=
    ⟨_, rfl⟩
  refine ⟨r, hr, fun operations => ?_⟩
  have hreached := (shaped_create placed hr).after operations
  have hschema := hreached.schema_eq
  have placed' : (r.after operations).schema.Placed := hschema ▸ placed
  refine ⟨?_, ?_, ?_, ?_, ?_⟩
  · intro name field hfield
    exact ⟨placed'.getElem? hfield, hreached.position_lt (hschema ▸ hfield)⟩
  · intro operation name declared
    rw [perform_eq_unknownField_iff placed', hschema, names]
  · intro name type hdeclared
    obtain ⟨field, hm, rfl, rfl⟩ := exists_declared hdeclared
    have hfield : (r.after operations).schema.field? field.name = some field := by
      rw [hschema]
      exact Schema.field?_of_nodup (names ▸ nodup) hm
    exact ⟨perform_put_eq_error_iff placed' hfield, perform_clear_eq_error_iff placed' hfield, _,
      perform_get_of_declared hfield⟩
  · exact fun operation e left hrefused => perform_eq_error hrefused
  · intro name value
    rw [perform_get_eq_ok_iff, get_after (shaped_create placed hr) (get_create_ne hr)]

/-- A note shows its text: other fields were changed since, and a change of its own was refused. A
note that is a number, a sheet without its number and an unknown field are refused. -/
theorem checked_map_sheet :
    let declarations : List (String × Schema) :=
      [("id", .scalar .int32 {}), ("note", .scalar .string { optional := true })]
    let operations : List Operation :=
      [.change (.put "note" (.scalar (.string "a"))), .change (.put "id" (.scalar (.int32 1))),
        .change (.put "note" (.scalar (.int32 2)))]
    ∃ r, create (.struct {} (declareFields declarations)) = .ok r ∧
      let reached := r.after operations
      reached.perform (.get "note") = .ok (some (.scalar (.string "a"))) reached ∧
      reached.perform (.change (.put "note" (.scalar (.int32 2)))) =
        .error (.typeMismatch "note" "expected string, found int32") reached ∧
      reached.perform (.change (.clear "id")) = .error (.missingRequiredField "id") reached ∧
      reached.perform (.get "x") = .error (.unknownField "x" ["id", "note"]) reached := by
  intro declarations operations
  have hbuild : Schema.build .struct {} declarations none =
      .ok (.struct {} (declareFields declarations)) := rfl
  obtain ⟨r, hr, hall⟩ := checked_map hbuild
  obtain ⟨-, hunknown, hdeclared, -, hshown⟩ := hall operations
  refine ⟨r, hr, (hshown _ _).mpr ⟨[], operations.tail, rfl, ?_, ?_⟩, ?_, ?_, ?_⟩
  · cases hr
    exact ⟨_, _, rfl⟩
  · intro middle operation rest hbehind hchanges
    cases hr
    rcases List.cons_eq_append_iff.mp hbehind with ⟨rfl, hnumber⟩ | ⟨middle, rfl, hrest⟩
    · cases hnumber
      exact absurd hchanges (by decide : "id" ≠ "note")
    · rcases List.cons_eq_append_iff.mp hrest with ⟨rfl, hnote⟩ | ⟨middle, rfl, hnil⟩
      · -- the number is refused
        cases hnote
        rintro ⟨_, _, h⟩
        cases h
      · simp at hnil
  · exact ((hdeclared "note" _ (List.mem_cons_of_mem _ List.mem_cons_self)).1 _ _).mpr
      ⟨.type (.scalar .string) (.scalar .int32), rfl, rfl⟩
  · exact ((hdeclared "id" _ List.mem_cons_self).2.1 _).mpr ⟨rfl, rfl⟩
  · exact (hunknown (.get "x") _ _).mpr ⟨by decide, rfl, rfl⟩

end Record

end RecordCipher
