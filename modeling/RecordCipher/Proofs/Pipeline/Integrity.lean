import RecordCipher.Proofs.Pipeline.Confinement
import RecordCipher.Proofs.Plan.Typing
import RecordCipher.Proofs.Record.Completeness

/-!
# What a pipeline leaves of a structured record

A record comes back from a pipeline with leaves in some places, and these are where its schema
admits them: every plan that writes has tasks, since the record itself is no leaf, and so checks
what it writes. Records are not leaves either. Each record in the result is therefore one that
was there before, of the same schema, and the fields that were set in it still are.

## Main definitions

* `Record.Intact`: records that have come to no harm

## Main results

* `supplants_of_splice`: writing back any reply keeps a record well formed
* `Overlaid.exists_part`: records with leaves laid over a value were there before
* `Record.validate_of_overlaid`: laying leaves over a record keeps it complete
* `Pipeline.transform_intact`: whatever a service does, and whatever it replies
-/

namespace RecordCipher

open Datum (Supplants)

/-! ## Writing back any reply -/

/-- Leaves are well formed. -/
theorem Replacements.AllLeaves.allWellFormed {replacements : Replacements Datum}
    (h : replacements.AllLeaves) : replacements.AllWellFormed := by
  intro path value hget
  obtain ⟨leaf, rfl⟩ := Datum.exists_scalar_of_isLeaf (h path value hget)
  exact .scalar leaf

/-- Writing back any reply, along plans with tasks, leaves what can stand wherever the value
could. -/
theorem supplants_of_splice {encoding : Encoding} {answers : List (FieldKey × Item)}
    {plans : List Plan} {current out : Datum} (htasks : ∀ plan ∈ plans, plan.tasks ≠ [])
    (hw : current.WellFormed) (h : splice encoding answers plans current = .ok out) :
    Supplants current out := by
  -- Induction on the plans, for what the plans before have made of the record.
  induction plans generalizing current with
  | nil =>
    obtain rfl : current = out := by simpa [splice] using h
    exact .refl hw
  | cons plan rest ih =>
    obtain ⟨written, hwrite, h⟩ := bind_eq_ok_iff.mp h
    obtain ⟨htasks, hrest⟩ := List.forall_mem_cons.mp htasks
    have leaves := allLeaves_repliesFor (α := Datum) encoding plan.expression answers
    have first := Plan.supplants_of_write htasks leaves.allWellFormed hw hwrite
    exact first.trans (ih hrest first.wellFormed h)

/-- A plan that only leads to leaves of a record has tasks. -/
theorem Plan.tasks_ne_nil {plan : Plan} {record : Record}
    (hleaf : ∀ l node, Reaches plan.tasks record.toDatum l node → isLeaf node = true) :
    plan.tasks ≠ [] := by
  intro htasks
  -- without tasks it leads to the record itself
  have hroot : isLeaf record.toDatum = true := by
    apply hleaf [] record.toDatum
    rw [htasks]
    exact ⟨rfl, rfl⟩
  cases hroot

/-! ## Leaves laid over a record -/

theorem Datum.not_isLeaf_of_part {entered : Datum → Prop} {node : Datum} {schema : Schema}
    {slots : List (Option Datum)} (h : Part entered node (.struct schema slots)) :
    isLeaf node = false := by
  cases node with
  | scalar value => cases (part_scalar_iff value).mp h
  | array items => rfl
  | struct schema slots => rfl

section Parts

variable {allowed : Location → Prop} {record current : Datum}

/-- An item that is no leaf was there before, in an array. -/
theorem Overlaid.exists_item {items : List Datum} {item : Datum}
    (h : Overlaid allowed record (Datum.array items)) (mem : item ∈ items)
    (hleaf : isLeaf item = false) : ∃ items' old allowed', record = .array items' ∧
      old ∈ items' ∧ Overlaid allowed' old item := by
  obtain ⟨i, hi⟩ := List.mem_iff_getElem?.mp mem
  obtain ⟨old, hold, hover⟩ := h.child rfl (by rw [Datum.child?_index_array, hi]) hleaf
  have hhead := h.head_eq rfl
  cases record with
  | array items' =>
    rw [Datum.child?_index_array] at hold
    exact ⟨items', old, _, rfl, List.mem_of_getElem? (by simpa using hold), hover⟩
  | _ => cases hhead

/-- A value in a slot that is no leaf was there before, in a record of the same schema. -/
theorem Overlaid.exists_slot {schema : Schema} {slots : List (Option Datum)} {value : Datum}
    (h : Overlaid allowed record (Datum.struct schema slots)) (placed : schema.Placed)
    (nodup : schema.fieldNames.Nodup) (size : slots.length = schema.fields.length)
    (mem : some value ∈ slots) (hleaf : isLeaf value = false) :
    ∃ slots' old allowed', record = .struct schema slots' ∧ some old ∈ slots' ∧
      Overlaid allowed' old value := by
  obtain ⟨i, hi⟩ := List.mem_iff_getElem?.mp mem
  obtain ⟨field, hfield⟩ : ∃ field, schema.fields[i]? = some field := by
    have hlt := (List.getElem?_eq_some_iff.mp hi).1
    exact ⟨_, List.getElem?_eq_getElem (by omega)⟩
  have hchild : Tree.child? (Datum.struct schema slots) (.field field.name) =
      .ok (some value) := by
    rw [Datum.child?_field_of_placed placed nodup hfield, hi]
    rfl
  obtain ⟨old, hold, hover⟩ := h.child rfl hchild hleaf
  have hhead := h.head_eq rfl
  cases record with
  | struct schema' slots' =>
    obtain rfl : schema = schema' := Datum.Head.struct.inj hhead
    rw [Datum.child?_field_of_placed placed nodup hfield] at hold
    have hslot := Option.join_eq_some_iff.mp (by simpa using hold)
    exact ⟨slots', old, _, rfl, List.mem_of_getElem? hslot, hover⟩
  | _ => cases hhead

/-- A record that is looked at in a value with leaves laid over it was looked at before, as a
record of the same schema, without the leaves laid over it. -/
theorem Overlaid.exists_part (h : Overlaid allowed record current) (hs : Sound record)
    (hw : current.WellFormed) {schema : Schema} {slots : List (Option Datum)}
    (hpart : current.Examines (.struct schema slots)) :
    ∃ slots' allowed', record.Examines (.struct schema slots') ∧ schema.Placed ∧
      schema.fieldNames.Nodup ∧
      Overlaid allowed' (Datum.struct schema slots') (Datum.struct schema slots) := by
  -- Induction on the value with the leaves. Whatever holds a record is no leaf, so that it was
  -- there before.
  induction hw generalizing allowed record with
  | scalar value => cases (Datum.part_scalar_iff value).mp hpart
  | @array items wellFormed ih =>
    obtain heq | ⟨item, mem, enters, below⟩ := (Datum.part_array_iff items).mp hpart
    · cases heq
    · have hleaf := Datum.not_isLeaf_of_part below
      obtain ⟨items', old, allowed', rfl, mem', hover⟩ := h.exists_item mem hleaf
      have hs' := (Datum.sound_array_iff items').mp hs old mem'
      obtain ⟨slots', allowed', hexamines, rest⟩ := ih item mem hover hs' below
      -- the item is no array, so that the one before was none either
      have hhead := hover.head_eq hleaf
      have enters' : old.items? = none := by
        cases old with
        | array olds =>
          cases item with
          | array items => cases enters
          | _ => cases hhead
        | _ => rfl
      exact ⟨slots', allowed', .item mem' enters' hexamines, rest⟩
  | @struct schema' slots₁ size admitted wellFormed ih =>
    have hhead := h.head_eq rfl
    cases record with
    | struct schema₂ slots₂ =>
      obtain rfl : schema' = schema₂ := Datum.Head.struct.inj hhead
      obtain ⟨-, placed, nodup, sound⟩ := (Datum.sound_struct_iff schema' slots₂).mp hs
      obtain heq | ⟨value, mem, below⟩ := (Datum.part_struct_iff schema' slots₁).mp hpart
      · cases heq
        exact ⟨slots₂, allowed, .self _, placed, nodup, h⟩
      · obtain ⟨_, old, allowed', ⟨⟩, mem', hover⟩ :=
          h.exists_slot placed nodup size mem (Datum.not_isLeaf_of_part below)
        obtain ⟨slots', allowed', hexamines, rest⟩ := ih value mem hover (sound old mem') below
        exact ⟨slots', allowed', .slot mem' hexamines, rest⟩
    | _ => cases hhead

end Parts

namespace Record

variable {record out : Record}

theorem toDatum_injective : Function.Injective toDatum := by
  rintro ⟨schema, slots⟩ ⟨schema', slots'⟩ ⟨⟩
  rfl

/-- A record that passes still does with leaves laid over it. -/
theorem validate_of_overlaid {allowed : Location → Prop} (hs : Sound record.toDatum)
    (hw : record.toDatum.WellFormed) (hw' : out.toDatum.WellFormed)
    (h : Overlaid allowed record.toDatum out.toDatum) (hvalid : record.validate = .ok ()) :
    out.validate = .ok () := by
  rw [(validate_iff_complete hw').1]
  intro part hpart i field hfield hrequired
  obtain ⟨slots, allowed', hexamines, placed, nodup, hover⟩ := h.exists_part hs hw' hpart
  -- the field was set before, and something still is where something was
  obtain ⟨old, hold⟩ := (validate_iff_complete hw).1.mp hvalid ⟨part.schema, slots⟩ hexamines i
    field hfield hrequired
  have hchild : Tree.child? (Datum.struct part.schema slots) (.field field.name) =
      .ok (some old) := by
    rw [Datum.child?_field_of_placed placed nodup hfield, hold]
    rfl
  obtain ⟨value, hvalue⟩ := hover.exists_child? rfl hchild
  rw [Datum.child?_field_of_placed placed nodup hfield] at hvalue
  exact ⟨value, Option.join_eq_some_iff.mp (by simpa using hvalue)⟩

/-! ## Pipelines -/

/-- A record that has come to no harm: it is well formed and of the schema it was of before, where
something was set something still is, and it passes if it did before. -/
structure Intact (record out : Record) : Prop where
  schema_eq : out.schema = record.schema
  wellFormed : out.toDatum.WellFormed
  kept : ∀ l old, nodeAt? l record.toDatum = .ok (some old) →
    ∃ new, nodeAt? l out.toDatum = .ok (some new)
  validate : record.validate = .ok () → out.validate = .ok ()

theorem Intact.refl (hw : record.toDatum.WellFormed) : Intact record record where
  schema_eq := rfl
  wellFormed := hw
  kept _ old hold := ⟨old, hold⟩
  validate h := h

end Record

/-- A record that was read along the plans of a pipeline is intact, whatever reply is written
back. -/
theorem Prepared.update_intact {settings : Settings} {p : Prepared}
    (hp : ofSettings settings = .ok p) {record out : Record} (hs : Sound record.toDatum)
    (hw : record.toDatum.WellFormed) {items : List (FieldKey × Item)}
    (hitems : collect record.toDatum p.fields.plans = .ok items) {reply : ItemMap}
    (h : p.update record.toDatum reply = .ok out.toDatum) : record.Intact out := by
  have harvest := (collect_ok_iff record.toDatum p.fields.plans).mp ⟨items, hitems⟩
  have hsupplants : Supplants record.toDatum out.toDatum :=
    supplants_of_splice (fun plan hm => Plan.tasks_ne_nil (harvest plan hm).2) hw
      (mapError_eq_ok_iff.mp h)
  refine ⟨?_, hsupplants.wellFormed, fun l old hold => ?_, ?_⟩
  · obtain ⟨slots, heq⟩ := hsupplants.eq_struct
    obtain rfl : out = ⟨record.schema, slots⟩ := Record.toDatum_injective heq
    rfl
  · obtain ⟨new, hnew, -⟩ := (update_confined hp hs hitems h).kept l old hold
    exact ⟨new, hnew⟩
  · exact Record.validate_of_overlaid hs hw hsupplants.wellFormed
      (update_overlaid hp hs hitems h)

namespace Pipeline

variable {m : Type → Type} [Monad m] [LawfulMonad m]

/-- Whatever the service of a pipeline does, and whatever it replies, a well-formed record that
the pipeline takes is intact. -/
theorem transform_intact {settings : Settings} {p : Pipeline m}
    (hp : Prepared.ofSettings settings = .ok p.toPrepared) {record : Record}
    (hs : Sound record.toDatum) (hw : record.toDatum.WellFormed) :
    Always (fun result => ∀ out, result = .ok out → record.Intact out)
      (p.transformRecord record) := by
  refine .bind (always_updated p record.toDatum) ?_
  intro result updated
  apply Always.pure
  intro out hout
  obtain ⟨value, hvalue, hrecord⟩ := bind_eq_ok_iff.mp hout
  obtain rfl := (asRecord_eq_ok_iff value out).mp hrecord
  rcases updated _ hvalue with heq | ⟨items, reply, hitems, hreply⟩
  · obtain rfl := Record.toDatum_injective heq
    exact .refl hw
  · exact Prepared.update_intact hp hs hw hitems hreply

/-- A text is replaced in a record that has both its texts. -/
theorem transform_intact_both_set :
    (twoTexts (some (.scalar (.string "y")))).Intact (twoTexts (some (.scalar (.string "4")))) ∧
    (twoTexts (some (.scalar (.string "4")))).validate = .ok () := by
  have sound : Sound (twoTexts (some (.scalar (.string "y")))).toDatum := by
    show Datum.Sound _
    simp [twoTexts, Record.toDatum, Schema.fields, Schema.fieldNames, Schema.Placed,
      List.range_succ]
  have wellFormed : (twoTexts (some (.scalar (.string "y")))).toDatum.WellFormed := by
    have created : Record.create (twoTexts none).schema =
        .ok ⟨(twoTexts none).schema, [none, none]⟩ := rfl
    have texts : ∀ name value,
        Record.Edit.put name value ∈ [.put "a" (.scalar (.string "x")),
          .put "b" (.scalar (.string "y"))] → value.WellFormed := by
      rintro name value (_ | ⟨_, _ | ⟨_, ⟨⟩⟩⟩) <;> exact .scalar _
    exact Record.wellFormed_editAll (Record.wellFormed_create created) texts
  have hout : completing.transformRecord (twoTexts (some (.scalar (.string "y")))) =
      pure (.ok (twoTexts (some (.scalar (.string "4"))))) := rfl
  obtain ⟨proved, hproved⟩ := transform_intact
    (show Prepared.ofSettings completing.settings = .ok completing.toPrepared from rfl)
    sound wellFormed
  have intact := proved.2 _ (hproved.symm.trans hout)
  exact ⟨intact, intact.validate rfl⟩

end Pipeline

end RecordCipher
