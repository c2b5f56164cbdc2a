import RecordCipher.Proofs.Plan.Reading
import RecordCipher.Proofs.Tree.Document
import RecordCipher.Proofs.Tree.Structured

/-!
# Reading without the schema

A structured value without its schema is a document: a record becomes the object of its set
fields, an array the array of what its items become, and a value without parts some text, number
or truth value. A plan reads in the document what it reads in the structured value, and fails
there as it does here, unless it asks for a field that the schema does not declare, which may
well be absent from a document. The two ways to look a field up agree, since a schema declares
each name once.

## Main definitions

* `PlainValue`: what a value without parts can become
* `Datum.erase`: a structured value without its schema
* `Corresponds`: what reading comes to in a structured value, and in what it becomes

## Main results

* `Datum.elements?_erase`, `Datum.field?_erase`: elements and fields without the schema
* `Task.below_erase`, `frontier_erase`: one task at one node, and all tasks level by level
* `Plan.read_erase`: reading along a plan
-/

namespace RecordCipher

/-! ## Structured values without their schemas -/

/-- What a value without parts can become. -/
inductive PlainValue where
  /-- A text. -/
  | text (s : String)
  /-- A number. -/
  | number (n : JsonNumber)
  /-- A truth value. -/
  | truth (b : Bool)
  deriving Repr, DecidableEq

/-- A text, number or truth value as a document. -/
def PlainValue.toJson : PlainValue → Json
  | text s => .string s
  | number n => .number n
  | truth b => .bool b

namespace Datum

section Erase

variable (plain : Scalar → PlainValue)

mutual

/-- A structured value without its schema: a record becomes the object of its set fields. -/
def erase : Datum → Json
  | scalar value => (plain value).toJson
  | array items => .array (eraseItems items)
  | struct schema slots => Json.ofMembers (eraseSlots schema.fieldNames slots)

/-- The items of an array without their schemas. -/
def eraseItems : List Datum → List Json
  | [] => []
  | item :: rest => erase item :: eraseItems rest

/-- The values in the set slots of a record without their schemas, with the names of their
fields. -/
def eraseSlots : List String → List (Option Datum) → List (String × Json)
  | name :: names, some value :: rest => (name, erase value) :: eraseSlots names rest
  | _ :: names, none :: rest => eraseSlots names rest
  | _, _ => []

end

theorem eraseItems_eq_map (items : List Datum) :
    eraseItems plain items = items.map (erase plain) := by
  induction items with
  | nil => rfl
  | cons item rest ih => rw [eraseItems, ih, List.map_cons]

/-- A set field is a member. -/
theorem mem_eraseSlots {names : List String} {slots : List (Option Datum)} {name : String}
    {value : Json} : (name, value) ∈ eraseSlots plain names slots ↔
      ∃ (i : Nat) (d : Datum), names[i]? = some name ∧ slots[i]? = some (some d) ∧
        erase plain d = value := by
  -- Induction on the slots, along the names of their fields.
  induction slots generalizing names with
  | nil => cases names <;> simp [eraseSlots]
  | cons slot rest ih =>
    cases names with
    | nil => simp [eraseSlots]
    | cons first names =>
      rw [← Nat.or_exists_add_one]
      simp only [List.getElem?_cons_zero, List.getElem?_cons_succ, ← ih]
      cases slot with
      | none => simp [eraseSlots]
      | some d =>
        rw [eraseSlots, List.mem_cons]
        simp [eq_comm]

variable {plain}

/-- The member for a declared field is what its slot holds. -/
theorem get?_eraseSlots {names : List String} {slots : List (Option Datum)} {name : String}
    {i : Nat} (nodup : names.Nodup) (h : names[i]? = some name) :
    (SortedMap.ofList (eraseSlots plain names slots)).get? name =
      slots[i]?.join.map (erase plain) := by
  have position : ∀ {j k : Nat} {other : String}, names[j]? = some other →
      names[k]? = some other → j = k := by
    intro j k other hj hk
    exact (List.getElem?_inj (List.getElem?_eq_some_iff.mp hj).1 nodup).mp (hj.trans hk.symm)
  have consistent : SortedMap.Consistent (eraseSlots plain names slots) := by
    intro other a b ha hb
    obtain ⟨j, d, hj, hd, rfl⟩ := (mem_eraseSlots plain).mp ha
    obtain ⟨k, d', hk, hd', rfl⟩ := (mem_eraseSlots plain).mp hb
    obtain rfl := position hj hk
    rw [hd] at hd'
    cases hd'
    rfl
  apply Option.ext
  intro value
  rw [SortedMap.get?_ofList consistent, mem_eraseSlots, Option.map_eq_some_iff]
  simp only [Option.join_eq_some_iff]
  constructor
  · rintro ⟨j, d, hj, hd, rfl⟩
    obtain rfl := position h hj
    exact ⟨d, hd, rfl⟩
  · rintro ⟨d, hd, rfl⟩
    exact ⟨i, d, h, hd, rfl⟩

end Erase

/-! ## One step below -/

section Step

variable {plain : Scalar → PlainValue}

theorem isNull_erase (node : Datum) : Tree.isNull (erase plain node) = false := by
  cases node with
  | scalar value =>
    rw [erase]
    cases plain value <;> rfl
  | array items => rfl
  | struct schema slots => rfl

theorem elements?_erase (node : Datum) :
    Tree.elements? (erase plain node) = (Tree.elements? node).map (List.map (erase plain)) := by
  cases node with
  | scalar value =>
    rw [erase]
    cases plain value <;> rfl
  | array items =>
    rw [erase, eraseItems_eq_map]
    rfl
  | struct schema slots => rfl

theorem isArray_erase (node : Datum) : Tree.isArray (erase plain node) = Tree.isArray node := by
  rw [Tree.isArray, Tree.isArray, elements?_erase, Option.isSome_map]

/-- A declared field is the member of its name. -/
theorem field?_erase {node : Datum} (hs : Sound node) {name : String} {child : Option Datum}
    (h : Tree.field? node name = .ok child) :
    Tree.field? (erase plain node) name = .ok (child.map (erase plain)) := by
  cases hs with
  | scalar value => cases h
  | array sound => cases h
  | @struct schema slots size placed nodup sound =>
    have h : Tree.child? (struct schema slots) (.field name) = .ok child := h
    obtain ⟨_, _, field, heq, hfield, rfl⟩ := child?_field_eq_ok h
    cases heq
    have hname : schema.fieldNames[field.position]? = some name := by
      simp [Schema.fieldNames, placed.getElem? hfield, (Schema.field?_spec hfield).1]
    rw [← get?_eraseSlots nodup hname]
    show Except.ok (member? _ name) = _
    rw [member?_eq_find?]
    rfl

/-- What has no fields has no members. -/
theorem field?_erase_of_notAnObject (plain : Scalar → PlainValue) {node : Datum}
    {name found : String} (h : Tree.field? node name = .error (.notAnObject found)) :
    ∃ found', Tree.field? (erase plain node) name = .error (.notAnObject found') := by
  cases node with
  | scalar value =>
    rw [erase]
    cases plain value <;> exact ⟨_, rfl⟩
  | array items => exact ⟨_, rfl⟩
  | struct schema slots =>
    rcases field?_eq_error h with ⟨hnode, -⟩ | ⟨_, _, -, -, heq⟩
    · exact absurd rfl (hnode schema slots)
    · cases heq

end Step

end Datum

/-! ## What reading comes to -/

/-- What reading comes to in a structured value, and what it comes to in a document that this
value becomes: the same, with values and what is found for a shape as they become, unless a field
is not declared. -/
inductive Corresponds {β γ : Type} (becomes : β → γ) :
    Except ResolutionError β → Except ResolutionError γ → Prop where
  /-- Both succeed. -/
  | ok (b : β) : Corresponds becomes (.ok b) (.ok (becomes b))
  /-- Both miss a shape. -/
  | shapeMismatch (path : String) (expected : Shape) (found found' : String) :
    Corresponds becomes (.error (.shapeMismatch path expected found))
      (.error (.shapeMismatch path expected found'))
  /-- Both meet an array inside an array. -/
  | nestedArray (path : String) :
    Corresponds becomes (.error (.nestedArray path)) (.error (.nestedArray path))
  /-- A field is not declared; a document knows of no declarations. -/
  | undeclaredField (path field : String) (declared : List String)
    (other : Except ResolutionError γ) :
    Corresponds becomes (.error (.undeclaredField path field declared)) other

namespace Corresponds

variable {β γ β' γ' : Type} {becomes : β → γ} {becomes' : β' → γ'}
  {x : Except ResolutionError β} {y : Except ResolutionError γ}

theorem bind {f : β → Except ResolutionError β'} {g : γ → Except ResolutionError γ'}
    (h : Corresponds becomes x y)
    (hf : ∀ b, x = .ok b → Corresponds becomes' (f b) (g (becomes b))) :
    Corresponds becomes' (x >>= f) (y >>= g) := by
  cases h with
  | ok b => exact hf b rfl
  | shapeMismatch path expected found found' =>
    exact .shapeMismatch path expected found found'
  | nestedArray path => exact .nestedArray path
  | undeclaredField path field declared => exact .undeclaredField path field declared _

theorem map {f : β → β'} {g : γ → γ'} (h : Corresponds becomes x y)
    (hf : ∀ b, g (becomes b) = becomes' (f b)) :
    Corresponds becomes' (x.map f) (y.map g) := by
  cases h with
  | ok b =>
    show Corresponds becomes' (.ok (f b)) (.ok (g (becomes b)))
    rw [hf]
    exact .ok (f b)
  | shapeMismatch path expected found found' =>
    exact .shapeMismatch path expected found found'
  | nestedArray path => exact .nestedArray path
  | undeclaredField path field declared => exact .undeclaredField path field declared _

end Corresponds

section Reading

variable (plain : Scalar → PlainValue)

/-- A node that is reached, without its schema. -/
def Reached.erase (here : Reached Datum) : Reached Json :=
  ⟨here.location, here.node.erase plain⟩

open Datum

theorem selectedElements_erase (location : Location) (selection : Selection) (i : Nat)
    (items : List Datum) :
    Corresponds (List.map (Reached.erase plain)) (selectedElements location selection i items)
      (selectedElements location selection i (items.map (Datum.erase plain))) := by
  induction items generalizing i with
  | nil => exact .ok []
  | cons item rest ih =>
    rw [List.map_cons, selectedElements, selectedElements, isNull_erase, isArray_erase]
    have hnull : Tree.isNull item = false := rfl
    rw [hnull]
    split
    · split
      · exact .nestedArray _
      · exact (ih (i + 1)).bind fun others _ => .ok (⟨location.index i, item⟩ :: others)
    · exact ih (i + 1)

/-- A task selects below a node what it selects there without the schema. -/
theorem Task.below_erase (task : Task) {here : Reached Datum} (hs : Sound here.node) :
    Corresponds (List.map (Reached.erase plain)) (task.below here)
      (task.below (here.erase plain)) := by
  cases task with
  | field name =>
    simp only [below, Reached.erase]
    rcases hfield : Tree.field? here.node name with e | child
    · obtain ⟨-, rfl⟩ | ⟨schema, slots, -, -, rfl⟩ := field?_eq_error hfield
      · obtain ⟨found', hfield'⟩ := field?_erase_of_notAnObject plain hfield
        rw [hfield']
        exact .shapeMismatch _ _ _ _
      · exact .undeclaredField _ _ _ _
    · rw [field?_erase hs hfield]
      cases child with
      | none => exact .ok []
      | some child =>
        have hnull : Tree.isNull child = false := rfl
        simp only [Option.map_some, isNull_erase, hnull]
        exact .ok ([⟨here.location.field name, child⟩] : List (Reached Datum))
  | elements selection =>
    simp only [below, Reached.erase, elements?_erase]
    cases Tree.elements? here.node with
    | none => exact .shapeMismatch _ _ _ _
    | some items => exact selectedElements_erase plain here.location selection 0 items

theorem advance_erase (task : Task) {reached : List (Reached Datum)}
    (hs : ∀ here ∈ reached, Sound here.node) :
    Corresponds (List.map (Reached.erase plain)) (advance task reached)
      (advance task (reached.map (Reached.erase plain))) := by
  induction reached with
  | nil => exact .ok []
  | cons here rest ih =>
    obtain ⟨hhere, hrest⟩ := List.forall_mem_cons.mp hs
    refine (task.below_erase plain hhere).bind fun below _ => (ih hrest).bind fun others _ => ?_
    rw [← List.map_append]
    exact .ok (below ++ others)

/-- Tasks reach from a frontier what they reach from it without the schemas. -/
theorem frontier_erase (tasks : List Task) {reached : List (Reached Datum)}
    (hs : ∀ here ∈ reached, Sound here.node) :
    Corresponds (List.map (Reached.erase plain)) (frontier tasks reached)
      (frontier tasks (reached.map (Reached.erase plain))) := by
  -- Induction on the tasks: what is one step below sound nodes is sound.
  induction tasks generalizing reached with
  | nil => exact .ok reached
  | cons task rest ih =>
    refine (advance_erase plain task hs).bind fun level hlevel => ih fun here hm => ?_
    obtain ⟨above, habove, step, child, -, hchild, -, rfl⟩ := (mem_advance hlevel here).mp hm
    exact LawfulTree.sound_child (hs above habove) hchild

end Reading

/-! ## Failures of reading -/

section Failures

variable {α : Type} [Tree α] {P : ResolutionError → Prop}

/-- Selecting elements fails at arrays inside arrays only. -/
theorem selectedElements_error {here : Location} {selection : Selection} {i : Nat}
    {items : List α} {e : ResolutionError}
    (h : selectedElements here selection i items = .error e) : ∃ path, e = .nestedArray path := by
  induction items generalizing i with
  | nil => cases h
  | cons item rest ih =>
    rw [selectedElements] at h
    split at h
    · split at h
      · cases h
        exact ⟨_, rfl⟩
      · exact ih (map_eq_error_iff.mp (by rwa [← map_eq_pure_bind] at h))
    · exact ih h

/-- A failure of reading is one of some task at some node. -/
theorem frontier_error (hP : ∀ (task : Task) (here : Reached α) e, task.below here = .error e → P e)
    {tasks : List Task} {reached : List (Reached α)} {e : ResolutionError}
    (h : frontier tasks reached = .error e) : P e := by
  have level : ∀ (task : Task) (reached : List (Reached α)),
      advance task reached = .error e → P e := by
    intro task reached hadvance
    induction reached with
    | nil => cases hadvance
    | cons here rest ih =>
      rw [advance] at hadvance
      cases hbelow : task.below here with
      | error e' =>
        rw [hbelow] at hadvance
        cases hadvance
        exact hP task here e hbelow
      | ok below =>
        cases hothers : advance task rest with
        | error e' =>
          rw [hbelow, hothers] at hadvance
          cases hadvance
          exact ih hothers
        | ok others =>
          rw [hbelow, hothers] at hadvance
          cases hadvance
  induction tasks generalizing reached with
  | nil => cases h
  | cons task rest ih =>
    rw [frontier] at h
    cases hadvance : advance task reached with
    | error e' =>
      rw [hadvance] at h
      cases h
      exact level task reached hadvance
    | ok next =>
      rw [hadvance] at h
      exact ih h

end Failures

/-! ## Reading along a plan -/

/-- In a document a field may be absent, but there are no declarations. -/
theorem Task.below_ne_undeclaredField (task : Task) (here : Reached Json) (path field : String)
    (declared : List String) : task.below here ≠ .error (.undeclaredField path field declared) := by
  cases task with
  | field name =>
    cases hnode : here.node with
    | object members =>
      simp only [below, hnode, Tree.field?, Json.field?]
      cases member? members name <;> simp
    | _ => simp [below, hnode, Tree.field?, Json.field?, AccessError.located]
  | elements selection =>
    simp only [below]
    cases Tree.elements? here.node with
    | none => simp
    | some items =>
      intro h
      obtain ⟨path', hpath⟩ := selectedElements_error h
      cases hpath

namespace Plan

variable (plain : Scalar → PlainValue)

theorem read_corresponds (plan : Plan) {root : Datum} (hs : Sound root) :
    Corresponds (SortedMap.mapValues (Datum.erase plain)) (plan.read root)
      (plan.read (root.erase plain)) := by
  have reached : Corresponds (List.map (Reached.erase plain)) (reach plan.tasks root)
      (reach plan.tasks (root.erase plain)) :=
    frontier_erase plain plan.tasks (by simpa using hs)
  refine reached.map fun found => ?_
  rw [← SortedMap.ofList_map, List.map_map, List.map_map]
  rfl

/-- Reading along a plan in a structured value without its schema: where the plan finds values,
it finds them without their schemas, under the same locations; where it misses a shape or meets
an array inside an array, it does so at the same location; and it fails in no other way, unless
a field is not declared, which it never is a matter of in documents. -/
theorem read_erase (plan : Plan) {root : Datum} (hs : Sound root) :
    (∀ values, plan.read root = .ok values →
      plan.read (root.erase plain) = .ok (values.mapValues (Datum.erase plain))) ∧
    (∀ path expected found, plan.read root = .error (.shapeMismatch path expected found) →
      ∃ found', plan.read (root.erase plain) = .error (.shapeMismatch path expected found')) ∧
    (∀ path, plan.read root = .error (.nestedArray path) →
      plan.read (root.erase plain) = .error (.nestedArray path)) ∧
    (∀ path reason, plan.read root ≠ .error (.rejectedValue path reason)) ∧
    ∀ (document : Json) path field declared,
      plan.read document ≠ .error (.undeclaredField path field declared) := by
  have corresponds := plan.read_corresponds plain hs
  have document : ∀ (document : Json) path field declared,
      plan.read document ≠ .error (.undeclaredField path field declared) := by
    intro document path field declared h
    refine frontier_error (P := (· ≠ .undeclaredField path field declared)) ?_
      (map_eq_error_iff.mp h) rfl
    rintro task here e hbelow rfl
    exact task.below_ne_undeclaredField here path field declared hbelow
  generalize plan.read (root.erase plain) = erased at corresponds
  refine ⟨fun values h => ?_, fun path expected found h => ?_, fun path h => ?_,
    fun path reason h => ?_, document⟩ <;> rw [h] at corresponds <;> cases corresponds
  · rfl
  · exact ⟨_, rfl⟩
  · rfl

/-- The schema of records with two optional texts. -/
def pairSchema : Schema :=
  .struct {} [⟨"a", 0, .scalar .string ⟨true, none⟩⟩, ⟨"b", 1, .scalar .string ⟨true, none⟩⟩]

/-- A record with a list of two pairs, of which one has no `b`, and a number. -/
def pairsRecord : Datum :=
  .struct (.struct {} [⟨"l", 0, .array {} pairSchema⟩, ⟨"n", 1, .scalar .int32 {}⟩])
    [some (.array [.struct pairSchema [some (.scalar (.string "x")), none],
        .struct pairSchema [none, some (.scalar (.string "y"))]]),
      some (.scalar (.int32 7))]

/-- In the pairs, one text is found; in the number, no field can be. -/
theorem read_erase_pairs :
    Plan.read ⟨"$.l[*].b", [.field "l", .elements .every, .field "b"]⟩
        (pairsRecord.erase fun value => .text value.display) =
      .ok (SortedMap.ofList [("$.l[1].b", .string "y")]) ∧
    ∃ found, Plan.read ⟨"$.n.b", [.field "n", .field "b"]⟩
        (pairsRecord.erase fun value => .text value.display) =
      .error (.shapeMismatch "$.n" .object found) := by
  have sound : Sound pairsRecord := by
    show Datum.Sound _
    simp [pairsRecord, pairSchema, Schema.fields, Schema.fieldNames, Schema.Placed,
      List.range_succ]
  constructor
  · exact (read_erase _ _ sound).1 (SortedMap.ofList [("$.l[1].b", .scalar (.string "y"))]) rfl
  · exact (read_erase _ _ sound).2.1 _ _ _ rfl

end Plan

end RecordCipher
