import RecordCipher.Proofs.Plan.Writing
import RecordCipher.Proofs.Record.WellFormed

/-!
# Writing keeps structured values well formed

A replacement for a field is checked against the schema of the field. An array has no schema of
its own: a replacement for an element is compared with the element that stands there, by its type
and, for records, by its schema. That says nothing of the items of an array inside an array, but
a plan goes on with no such element, and fails. What is written further down goes into a node that
was checked before, and does not change what schemas admit it.

So what writing makes of a node can stand wherever the node could.

## Main definitions

* `Datum.schema?`: the schema that a record carries
* `Datum.Supplants`: well-formed values that can stand wherever others can

## Main results

* `Task.supplants_of_write`, `supplants_of_rewriteReached`: one task, and going on below a node
* `supplants_of_writeBelow`: writing along tasks
* `Record.stays_wellFormed`: editing a record, and writing along a plan
-/

namespace RecordCipher

namespace Datum

/-- The schema that a record carries. -/
def schema? : Datum → Option Schema
  | struct schema _ => some schema
  | _ => none

theorem schema?_congr {a b : Datum} (h : a.head = b.head) : a.schema? = b.schema? := by
  cases a <;> cases b <;> simp_all [head, schema?]

theorem schema?_eq_some_iff {node : Datum} {schema : Schema} :
    node.schema? = some schema ↔ ∃ slots, node = struct schema slots := by
  cases node <;> simp [schema?]

/-- A well-formed value that can stand wherever another one can. -/
structure Supplants (before after : Datum) : Prop where
  wellFormed : WellFormed after
  type_eq : after.type = before.type
  schema?_eq : after.schema? = before.schema?
  admits : ∀ schema : Schema, schema.Admits before → schema.Admits after

theorem Supplants.refl {node : Datum} (h : WellFormed node) : Supplants node node :=
  ⟨h, rfl, rfl, fun _ hadmits => hadmits⟩

theorem Supplants.trans {a b c : Datum} (hab : Supplants a b) (hbc : Supplants b c) :
    Supplants a c where
  wellFormed := hbc.wellFormed
  type_eq := hbc.type_eq.trans hab.type_eq
  schema?_eq := hbc.schema?_eq.trans hab.schema?_eq
  admits schema h := hbc.admits schema (hab.admits schema h)

/-- What supplants a record is a record of the same schema. -/
theorem Supplants.eq_struct {schema : Schema} {slots : List (Option Datum)} {after : Datum}
    (h : Supplants (struct schema slots) after) : ∃ slots', after = struct schema slots' :=
  schema?_eq_some_iff.mp h.schema?_eq

/-- A slot of a record can be filled with what the schema at its position admits. -/
theorem Supplants.setSlot {schema : Schema} {slots : List (Option Datum)} {position : Nat}
    {value : Datum} (h : WellFormed (struct schema slots))
    (hadmits : (schema.fieldAt position).schema.Admits value) (hvalue : WellFormed value) :
    Supplants (struct schema slots) (struct schema (slots.set position (some value))) where
  wellFormed := by
    apply h.setSlot
    rintro _ ⟨⟩
    exact ⟨hadmits, hvalue⟩
  type_eq := rfl
  schema?_eq := rfl
  admits _ hschema := by
    cases hschema
    exact .struct

/-- An array can stand for another one when each of its items can for some item of that. -/
theorem Supplants.array {items items' : List Datum}
    (h : ∀ item' ∈ items', ∃ item ∈ items, Supplants item item') :
    Supplants (array items) (array items') where
  wellFormed := by
    refine .array fun item' hm => ?_
    obtain ⟨item, -, hitem⟩ := h item' hm
    exact hitem.wellFormed
  type_eq := rfl
  schema?_eq := rfl
  admits schema hschema := by
    cases hschema with
    | array admitted =>
      refine .array fun item' hm => ?_
      obtain ⟨item, hm', hitem⟩ := h item' hm
      exact hitem.admits _ (admitted item hm')

/-! ## Elements -/

/-- A value can take the place of an element of the same type, and of the same schema. -/
theorem checkReplacement_eq_ok_iff (current value : Datum) :
    checkReplacement current value = .ok () ↔
      value.type = current.type ∧ value.schema? = current.schema? := by
  unfold checkReplacement
  split
  · next hne =>
    simp only [reduceCtorEq, false_iff, not_and]
    exact fun heq => absurd heq.symm hne
  · next heq =>
    rw [and_iff_right (not_not.mp heq).symm]
    -- of values of one type, only records have anything else to be compared
    cases current <;> cases value <;> simp [schema?, type] at heq ⊢
    exact eq_comm

/-- Schemas tell values that are no arrays apart by their types and schemas only. -/
theorem supplants_of_type_eq {before after : Datum} (hafter : WellFormed after)
    (htype : after.type = before.type) (hschema : after.schema? = before.schema?)
    (harray : after.items? = none) : Supplants before after := by
  refine ⟨hafter, htype, hschema, fun schema hadmits => ?_⟩
  cases hadmits with
  | scalar type_eq =>
    rw [Schema.admits_scalar_iff, htype, type, type_eq]
  | array admitted =>
    cases after with
    | scalar value => simp [type] at htype
    | array items => simp [items?] at harray
    | struct schema' slots' => simp [type] at htype
  | struct =>
    obtain ⟨slots', rfl⟩ := schema?_eq_some_iff.mp hschema
    rw [Schema.admits_struct_iff]

end Datum

open Datum (Supplants)

variable {replacements : Replacements Datum} {here : Location} {node out : Datum}

/-- All replacements are well formed. -/
def Replacements.AllWellFormed (replacements : Replacements Datum) : Prop :=
  ∀ path value, replacements.get? path = some value → value.WellFormed

/-- Setting the replacements for elements leaves elements of the same types and schemas, and
those at other positions as they are. -/
theorem setReplacedElements_array (hR : replacements.AllWellFormed) {positions : List Nat}
    {items : List Datum} (hitems : ∀ item ∈ items, item.WellFormed)
    (h : setReplacedElements replacements here positions (.array items) = .ok out) :
    ∃ items', out = .array items' ∧ items'.length = items.length ∧
      ∀ (i : Nat) (item item' : Datum), items[i]? = some item → items'[i]? = some item' →
        item'.WellFormed ∧ item'.type = item.type ∧ item'.schema? = item.schema? ∧
          (i ∉ positions → item' = item) := by
  -- Induction on the positions, for the items that the ones before have made.
  induction positions generalizing items with
  | nil =>
    obtain rfl : _ = out := by simpa [setReplacedElements] using h
    refine ⟨items, rfl, rfl, fun i item item' hget hget' => ?_⟩
    obtain rfl : item = item' := by simpa [hget] using hget'
    exact ⟨hitems item (List.mem_of_getElem? hget), rfl, rfl, fun _ => rfl⟩
  | cons position rest ih =>
    rw [setReplacedElements] at h
    split at h
    · -- there is nothing for the first position
      obtain ⟨items', hout, hlength, spec⟩ := ih hitems h
      refine ⟨items', hout, hlength, fun i item item' hget hget' => ?_⟩
      obtain ⟨hwell, htype, hschema, hrest⟩ := spec i item item' hget hget'
      exact ⟨hwell, htype, hschema, fun hm => hrest fun hr => hm (List.mem_cons_of_mem _ hr)⟩
    · next value hvalue =>
      split at h
      · next written hset =>
        obtain ⟨_, current, ⟨⟩, hcurrent, hcheck, rfl⟩ :=
          Datum.setElement_eq_ok (Outcome.ofCopy_eq_ok_iff.mp hset)
        obtain ⟨htype, hschema⟩ := (Datum.checkReplacement_eq_ok_iff current value).mp hcheck
        have hset : ∀ item ∈ items.set position value, item.WellFormed := by
          intro item hm
          rcases List.mem_or_eq_of_mem_set hm with hm | rfl
          · exact hitems item hm
          · exact hR _ _ hvalue
        obtain ⟨items', hout, hlength, spec⟩ := ih hset h
        refine ⟨items', hout, by simpa using hlength, fun i item item' hget hget' => ?_⟩
        by_cases hi : i = position
        · -- the element is compared with the replacement, and this with what was there before
          subst hi
          obtain rfl : current = item := by simpa [hcurrent] using hget
          have hlt := (List.getElem?_eq_some_iff.mp hcurrent).1
          obtain ⟨hwell, htype', hschema', -⟩ :=
            spec i value item' (List.getElem?_set_self hlt) hget'
          exact ⟨hwell, htype'.trans htype, hschema'.trans hschema,
            fun hm => absurd List.mem_cons_self hm⟩
        · obtain ⟨hwell, htype', hschema', hrest⟩ :=
            spec i item item' (by rwa [List.getElem?_set_ne (Ne.symm hi)]) hget'
          exact ⟨hwell, htype', hschema', fun hm => hrest fun hr => hm (List.mem_cons_of_mem _ hr)⟩
      · cases h

/-! ## One task -/

/-- What a task makes of a node can stand wherever the node could. -/
theorem Task.supplants_of_write (hR : replacements.AllWellFormed) (hnode : node.WellFormed)
    {task : Task} (h : task.write replacements here node = .ok out) : Supplants node out := by
  cases task with
  | field name =>
    obtain ⟨hset, -⟩ := write_field_eq_ok_iff.mp h
    rcases setReplacedField_spec hset with ⟨-, rfl⟩ | ⟨value, hvalue, hset⟩
    · exact .refl hnode
    · obtain ⟨schema, slots, field, rfl, hfield, hvalid, rfl⟩ := Datum.setField_eq_ok hset
      exact .setSlot hnode ((Schema.validate_eq_ok_iff _ value).mp hvalid) (hR _ _ hvalue)
  | elements selection =>
    obtain ⟨items, focus, helems, hset, hf, hcheck⟩ := write_elements_eq_ok_iff.mp h
    cases node with
    | scalar value => cases helems
    | struct schema slots => cases helems
    | array items₀ =>
      obtain rfl : items₀ = items := by simpa [Tree.elements?, Datum.items?] using helems
      obtain ⟨items', rfl, hlength, spec⟩ :=
        setReplacedElements_array hR ((Datum.wellFormed_array_iff items₀).mp hnode) hset
      obtain rfl : _ = focus := by
        simpa [Tree.focusElements?, Datum.focusElements?] using hf
      rw [checkNoArray_ok_iff] at hcheck
      refine .array fun item' hm => ?_
      obtain ⟨i, hi, rfl⟩ := List.mem_iff_getElem.mp hm
      have hget' : items'[i]? = some items'[i] := List.getElem?_eq_getElem hi
      have hget : items₀[i]? = some items₀[i] := List.getElem?_eq_getElem (by omega)
      obtain ⟨hwell, htype, hschema, hrest⟩ := spec i _ _ hget hget'
      refine ⟨items₀[i], List.mem_of_getElem? hget, ?_⟩
      by_cases hpos : i ∈ selection.positions items₀.length
      · -- an element that may have been overwritten is no array, or the task fails
        apply Datum.supplants_of_type_eq hwell htype hschema
        by_contra harray
        refine hcheck ⟨i, items'[i], hget', ?_, rfl, Option.isSome_iff_ne_none.mpr harray⟩
        rw [Nat.zero_add]
        exact ((Selection.mem_positions selection items₀.length i).mp hpos).1
      · rw [← hrest hpos]
        exact .refl hwell

/-- Going on below a node leaves what can stand wherever the node could. -/
theorem supplants_of_rewriteReached {rewrite : Location → Datum → Except ResolutionError Datum}
    (keeps : ∀ here node out, node.WellFormed → rewrite here node = .ok out → Supplants node out)
    (hnode : node.WellFormed) {task : Task}
    (h : rewriteReached rewrite [task] here node = .ok out) : Supplants node out := by
  cases task with
  | field name =>
    rcases rewriteReached_field_eq_ok h with ⟨f, child, hf, -, hchild, rfl⟩ | ⟨rfl, -⟩
    · obtain ⟨schema, slots, field, old, rfl, hfield, hslot, rfl⟩ := Datum.focusField?_eq_some hf
      obtain ⟨hadmits, hold⟩ := hnode.slot hslot
      have hsupplants := keeps _ _ _ hold hchild
      exact .setSlot hnode (hsupplants.admits _ hadmits) hsupplants.wellFormed
    · exact .refl hnode
  | elements selection =>
    rcases rewriteReached_elements_eq_ok h with ⟨f, items', hf, hitems, rfl⟩ | ⟨rfl, -⟩
    · obtain ⟨items, rfl, rfl⟩ := Datum.focusElements?_eq_some hf
      refine .array fun item' hm => ?_
      obtain ⟨i, hi, rfl⟩ := List.mem_iff_getElem.mp hm
      have hi' : i < items.length := by rwa [← rewriteItems_length hitems]
      refine ⟨items[i], List.getElem_mem hi', ?_⟩
      have hitem := (Datum.wellFormed_array_iff items).mp hnode _ (List.getElem_mem hi')
      have spec := rewriteItems_spec hitems i _ (List.getElem?_eq_getElem hi')
      rw [List.getElem?_eq_getElem hi] at spec
      -- an item was rewritten, or is the one that was there before
      split at spec
      · obtain ⟨item', hitem', hget⟩ := spec
        obtain rfl : items'[i] = item' := by simpa using hget
        exact keeps _ _ _ hitem hitem'
      · obtain heq : items'[i] = items[i] := by simpa using spec
        rw [heq]
        exact .refl hitem
    · exact .refl hnode

/-! ## All tasks -/

/-- Writing along tasks leaves what can stand wherever the node could. -/
theorem supplants_of_writeBelow (hR : replacements.AllWellFormed) {tasks : List Task}
    (hnode : node.WellFormed) (h : writeBelow replacements tasks here node = .ok out) :
    Supplants node out := by
  -- Induction on the tasks, for all nodes at once: the others go on with many of them.
  induction tasks generalizing here node out with
  | nil =>
    obtain rfl : node = out := by simpa [writeBelow] using h
    exact .refl hnode
  | cons task rest ih =>
    obtain ⟨written, hwrite, hrewrite⟩ := bind_eq_ok_iff.mp h
    have first := Task.supplants_of_write hR hnode hwrite
    exact first.trans (supplants_of_rewriteReached (fun _ _ _ hnode h => ih hnode h)
      first.wellFormed hrewrite)

/-- Writing along a plan with tasks leaves what can stand wherever the root could. -/
theorem Plan.supplants_of_write {plan : Plan} (htasks : plan.tasks ≠ [])
    (hR : replacements.AllWellFormed) (hnode : node.WellFormed)
    (h : plan.write node replacements = .ok out) : Supplants node out := by
  rw [Plan.write_eq_ok_iff, if_neg htasks] at h
  split at h
  · subst h
    exact .refl hnode
  · exact supplants_of_writeBelow hR hnode h

/-- Creating a record, putting well-formed values into it and clearing fields makes a well-formed
record. Writing well-formed replacements into a well-formed record, along a plan with tasks,
makes a well-formed record of the same schema. -/
theorem Record.stays_wellFormed :
    (∀ (schema : Schema) (record : Record) (changes : List Edit),
      create schema = .ok record →
      (∀ name value, Edit.put name value ∈ changes → value.WellFormed) →
        (record.editAll changes).toDatum.WellFormed) ∧
    ∀ (plan : Plan) (root : Record) (replacements : Replacements Datum) (out : Datum),
      plan.tasks ≠ [] → root.toDatum.WellFormed → replacements.AllWellFormed →
      plan.write root.toDatum replacements = .ok out →
        ∃ record : Record, out = record.toDatum ∧ record.schema = root.schema ∧
          record.toDatum.WellFormed := by
  constructor
  · intro schema record changes hcreate hvalues
    exact wellFormed_editAll (wellFormed_create hcreate) hvalues
  · intro plan root replacements out htasks hroot hR h
    have hsupplants := Plan.supplants_of_write htasks hR hroot h
    obtain ⟨slots, rfl⟩ := hsupplants.eq_struct
    exact ⟨⟨root.schema, slots⟩, rfl, rfl, hsupplants.wellFormed⟩

/-- Lines of text, with a title that can be left out. -/
def sheetSchema : Schema :=
  .struct {} [⟨"title", 0, .scalar .string { optional := true }⟩,
    ⟨"lines", 1, .array {} (.struct {} [⟨"text", 0, .scalar .string {}⟩])⟩]

/-- A line of text. -/
def sheetLine (text : String) : Datum :=
  .struct (.struct {} [⟨"text", 0, .scalar .string {}⟩]) [some (.scalar (.string text))]

/-- A sheet is made of a line, after a title was given and taken back and a text was refused in
place of the lines. Then the line is replaced, and its text is replaced in the replacement. -/
theorem Record.stays_wellFormed_sheet :
    (Record.toDatum ⟨sheetSchema, [none, some (.array [sheetLine "x"])]⟩).WellFormed ∧
    (Record.toDatum ⟨sheetSchema, [none, some (.array [sheetLine "z"])]⟩).WellFormed := by
  have line : ∀ text, (sheetLine text).WellFormed := by
    intro text
    exact Record.stays_wellFormed.1 (.struct {} [⟨"text", 0, .scalar .string {}⟩]) ⟨_, [none]⟩
      [.put "text" (.scalar (.string text))] rfl (by simp)
  have sheet : (Record.toDatum
      ⟨sheetSchema, [none, some (.array [sheetLine "x"])]⟩).WellFormed := by
    refine Record.stays_wellFormed.1 sheetSchema ⟨_, [none, none]⟩
      [.put "title" (.scalar (.string "t")), .put "lines" (.scalar (.string "x")), .clear "title",
        .put "lines" (.array [sheetLine "x"])] rfl ?_
    rintro name value hm
    simp only [List.mem_cons, Record.Edit.put.injEq, reduceCtorEq, List.not_mem_nil, or_false,
      false_or] at hm
    rcases hm with ⟨-, rfl⟩ | ⟨-, rfl⟩ | ⟨-, rfl⟩ <;> simp [line]
  refine ⟨sheet, ?_⟩
  obtain ⟨record, hout, -, hwell⟩ := Record.stays_wellFormed.2
    ⟨"$.lines[*].text", [.field "lines", .elements .every, .field "text"]⟩
    ⟨sheetSchema, [none, some (.array [sheetLine "x"])]⟩
    (SortedMap.ofList [("$.lines[0]", sheetLine "y"),
      ("$.lines[0].text", .scalar (.string "z"))])
    (Record.toDatum ⟨sheetSchema, [none, some (.array [sheetLine "z"])]⟩) (by simp) sheet
    (by
      intro path value hget
      have hm := SortedMap.mem_of_get?_ofList hget
      simp only [List.mem_cons, Prod.mk.injEq, List.not_mem_nil, or_false] at hm
      rcases hm with ⟨-, rfl⟩ | ⟨-, rfl⟩ <;> simp [line])
    rfl
  rw [hout]
  exact hwell

end RecordCipher
