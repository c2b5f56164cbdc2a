import RecordCipher.Proofs.Plan.Agreement
import RecordCipher.Proofs.Plan.Typing

/-!
# Writing back what was read

What is read along a plan stands at the end of all its tasks, so that only the last task finds
replacements when it is written back. Each of them is what stands one step below a node that the
other tasks lead to. A node takes back what stands below it, unless it holds what its own checks
would refuse: a document has no checks, and in a structured value that conforms to its schemas
every value passes those of its place.

## Main definitions

* `Tree.TakesBack`: a node can be set to what it is

## Main results

* `Task.write_eq_self`: a task that finds nothing but what is there changes nothing
* `Plan.write_eq_self`: writing back what was read changes nothing, if all nodes take it back
* `Datum.WellFormed.takesBack`: conforming values do
* `Plan.write_back`: writing back what was read, in both flavors
-/

namespace RecordCipher

/-- A node can be set to what it is: what stands one step below it passes the checks there. -/
def Tree.TakesBack {α : Type} [Tree α] (node : α) : Prop :=
  ∀ step child, Tree.child? node step = .ok (some child) →
    Tree.setChild node step child = .ok () node

section

variable {α : Type} [Tree α]

/-- What every node has in common with the nodes one step below it, it has with all nodes that
tasks lead to. -/
theorem Reaches.inherit {P : α → Prop}
    (hP : ∀ node child step, P node → Tree.child? node step = .ok (some child) → P child)
    {tasks : List Task} {node reached : α} {l : Location} (hnode : P node)
    (h : Reaches tasks node l reached) : P reached := by
  induction tasks generalizing node l with
  | nil => exact h.2 ▸ hnode
  | cons task rest ih =>
    match l, h with
    | step :: below, ⟨_, child, hchild, _, hbelow⟩ =>
      exact ih (hP node child step hnode hchild) hbelow

/-! ## One task -/

section One

variable {replacements : Replacements α} {here : Location} {node : α}

theorem setReplacedElements_eq_self {positions : List Nat}
    (h : ∀ i ∈ positions, ∀ value, replacements.get? (here.index i).text = some value →
      Tree.setElement node i value = .ok () node) :
    setReplacedElements replacements here positions node = .ok node := by
  induction positions with
  | nil => rfl
  | cons i rest ih =>
    obtain ⟨hi, hrest⟩ := List.forall_mem_cons.mp h
    rw [setReplacedElements]
    cases hget : replacements.get? (here.index i).text with
    | none => exact ih hrest
    | some value =>
      simp only [hi value hget, Outcome.ofCopy]
      exact ih hrest

/-- A task that fits a node, and finds no replacements but what is there, changes nothing. -/
theorem Task.write_eq_self [LawfulTree α] {task : Task} (hfits : task.Fits node)
    (h : ∀ step value, task.selects step = true →
      replacements.get? (here ++ [step]).text = some value →
        Tree.setChild node step value = .ok () node) :
    task.write replacements here node = .ok node := by
  cases task with
  | field name =>
    refine write_field_eq_ok_iff.mpr ⟨?_, fits_field_iff.mp hfits⟩
    rw [setReplacedField]
    cases hget : replacements.get? (here.field name).text with
    | none => rfl
    | some value =>
      have hset : Tree.setField node name value = .ok () node :=
        h (.field name) value (by simp [selects]) hget
      simp only [hset, Outcome.ofCopy]
  | elements selection =>
    obtain ⟨items, helems, -⟩ := id hfits
    obtain ⟨focus, hfocus, hcheck⟩ := (fits_elements_iff here).mp hfits
    refine write_elements_eq_ok_iff.mpr ⟨items, focus, helems, ?_, hfocus, hcheck⟩
    apply setReplacedElements_eq_self
    intro i hi value hget
    exact h (.index i) value ((Selection.mem_positions selection items.length i).mp hi).1 hget

end One

/-! ## A plan -/

section Plans

variable [LawfulTree α] {plan : Plan} {root : α} {values : PathMap α}

omit [LawfulTree α] in
/-- What was read is at the end of all tasks, and nowhere before. -/
theorem Plan.get?_eq_none_of_read (h : plan.read root = .ok values) {init : List Task}
    {last : Task} (htasks : plan.tasks = init ++ [last]) {l : Location} (hl : Along init l) :
    values.get? l.text = none := by
  by_contra hget
  obtain ⟨value, hvalue⟩ := Option.ne_none_iff_exists'.mp hget
  obtain ⟨l', htext, hreach⟩ := (Plan.get?_of_read h l.text value).mp hvalue
  refine Plan.not_addresses htasks (List.cons_ne_nil last []) hl ?_
  exact ⟨l', hreach.length_eq, hreach.along, htext⟩

omit [LawfulTree α] in
/-- What was read one step below a node that all tasks but the last one lead to stands there. -/
theorem Plan.child?_of_read (h : plan.read root = .ok values) {init : List Task} {last : Task}
    (htasks : plan.tasks = init ++ [last]) {l : Location} {node value : α}
    (hreach : Reaches init root l node) {step : Location.Step} (hsel : last.selects step = true)
    (hget : values.get? (l ++ [step]).text = some value) :
    Tree.child? node step = .ok (some value) := by
  obtain ⟨l', htext, hreach'⟩ := (Plan.get?_of_read h _ value).mp hget
  have halong : Along plan.tasks (l ++ [step]) := by
    rw [htasks]
    exact hreach.along.append hreach.length_eq ⟨hsel, trivial⟩
  obtain rfl := hreach'.along.text_injective halong htext
  have hnode := hreach'.nodeAt?
  rwa [nodeAt?_append hreach.nodeAt?, nodeAt?_singleton] at hnode

omit [LawfulTree α] in
/-- What can be read can be followed up to the last task, which fits all nodes of the level. -/
theorem Plan.exists_level_of_read (h : plan.read root = .ok values) {init : List Task}
    {last : Task} (htasks : plan.tasks = init ++ [last]) :
    ∃ level, reach init root = .ok level ∧ ∀ here ∈ level, last.Fits here.node := by
  obtain ⟨out, hout, -⟩ := map_eq_ok_iff.mp h
  rw [htasks, reach_concat] at hout
  obtain ⟨level, hlevel, hadvance⟩ := bind_eq_ok_iff.mp hout
  exact ⟨level, hlevel, (advance_ok_iff last level).mp ⟨out, hadvance⟩⟩

/-- The last task changes nothing when what was read is written back. -/
theorem Plan.rewriteReached_eq_self (h : plan.read root = .ok values) {init : List Task}
    {last : Task} (htasks : plan.tasks = init ++ [last])
    (hback : ∀ l node, Reaches init root l node → Tree.TakesBack node) {level : List (Reached α)}
    (hlevel : reach init root = .ok level) (hfits : ∀ here ∈ level, last.Fits here.node) :
    rewriteReached (fun here node => last.write values here node) init Location.root root =
      .ok root := by
  have hnode : ∀ l node, Reaches init root l node → last.write values l node = .ok node := by
    intro l node hreach
    refine Task.write_eq_self (hfits ⟨l, node⟩ ((mem_reach hlevel l node).mpr hreach)) ?_
    intro step value hsel hget
    exact hback l node hreach step value (Plan.child?_of_read h htasks hreach hsel hget)
  -- no node fails, and no node changes
  have hverdict : verdict (rewriteReached (fun here node => last.write values here node) init
      Location.root root) = .ok () := by
    rw [verdict_rewriteReached hlevel]
    refine forM_eq_ok fun here hm => verdict_eq_ok_iff.mpr ⟨here.node, ?_⟩
    exact hnode here.location here.node ((mem_reach hlevel _ _).mp hm)
  obtain ⟨root', hroot'⟩ := verdict_eq_ok_iff.mp hverdict
  obtain rfl : root' = root := by
    refine eq_of_rewriteReached (fun l x x' hreach hx => ?_) hroot'
    exact (Except.ok.inj ((hnode l x hreach).symm.trans hx)).symm
  exact hroot'

/-- Writing back what was read changes nothing, if all nodes on the way take it back. -/
theorem Plan.write_eq_self (h : plan.read root = .ok values)
    (hback : ∀ tasks l node, Reaches tasks root l node → Tree.TakesBack node) :
    plan.write root values = .ok root := by
  rw [Plan.write]
  by_cases hempty : values.isEmpty
  · rw [if_pos hempty]
  · rcases List.eq_nil_or_concat' plan.tasks with htasks | ⟨init, last, htasks⟩
    · -- what was read is the root
      have hroot : values.get? Location.root.text = some root :=
        (Plan.get?_of_read h _ root).mpr ⟨[], rfl, by simp [htasks, Reaches]⟩
      simp [hempty, htasks, hroot]
    · have hne : plan.tasks.isEmpty = false := by simp [htasks]
      obtain ⟨level, hlevel, hfits⟩ := Plan.exists_level_of_read h htasks
      rw [if_neg hempty, hne, if_neg Bool.false_ne_true, htasks,
        writeLevels_concat last fun l _ hl => Plan.get?_eq_none_of_read h htasks hl, hlevel]
      exact Plan.rewriteReached_eq_self h htasks (hback init) hlevel hfits

end Plans

end

/-! ## What nodes take back -/

/-- A document takes back whatever it holds. -/
theorem Json.takesBack (node : Json) : Tree.TakesBack node := by
  intro step child hchild
  cases step with
  | field name =>
    cases node with
    | object members =>
      have hmember : member? members name = some child := Except.ok.inj hchild
      exact (setField_of_member? hmember child).trans (by rw [replaceMember_member? hmember])
    | _ => cases hchild
  | index i =>
    cases node with
    | array items =>
      have hget : items[i]? = some child := Except.ok.inj hchild
      obtain ⟨hlt, rfl⟩ := List.getElem?_eq_some_iff.mp hget
      exact (setElement_of_lt hlt _).trans (by rw [List.set_getElem_self])
    | _ => cases hchild

namespace Datum

/-- What stands one step below a conforming value conforms as well. -/
theorem WellFormed.child {node child : Datum} {step : Location.Step} (h : WellFormed node)
    (hchild : Tree.child? node step = .ok (some child)) : WellFormed child := by
  cases h with
  | scalar value => cases step <;> cases hchild
  | array wellFormed =>
    cases step with
    | field name => cases hchild
    | index i => exact wellFormed child (List.mem_of_getElem? (Except.ok.inj hchild))
  | @struct schema slots size admitted wellFormed =>
    cases step with
    | index i => cases hchild
    | field name =>
      obtain ⟨_, _, field, heq, -, hslot⟩ := child?_field_eq_ok hchild
      cases heq
      exact wellFormed child (List.mem_of_getElem? (Option.join_eq_some_iff.mp hslot))

/-- A conforming value takes back what it holds: it passes the check of its field, and an element
can take its own place. -/
theorem WellFormed.takesBack {node : Datum} (h : WellFormed node) : Tree.TakesBack node := by
  intro step child hchild
  cases step with
  | field name =>
    obtain ⟨schema, slots, field, rfl, hfield, hjoin⟩ := child?_field_eq_ok hchild
    have hslot : slots[field.position]? = some (some child) := Option.join_eq_some_iff.mp hjoin
    have hvalid : (schema.fieldAt field.position).schema.validate child = .ok () :=
      (Schema.validate_eq_ok_iff _ _).mpr (h.slot hslot).1
    have hsame : slots.set field.position (some child) = slots := by
      obtain ⟨hlt, hget⟩ := List.getElem?_eq_some_iff.mp hslot
      rw [← hget, List.set_getElem_self]
    exact (setField_of_validate hfield hvalid).trans (by rw [hsame])
  | index i =>
    cases node with
    | array items =>
      have hget : items[i]? = some child := Except.ok.inj hchild
      have hcheck : checkReplacement child child = .ok () :=
        (checkReplacement_eq_ok_iff child child).mpr ⟨rfl, rfl⟩
      obtain ⟨hlt, rfl⟩ := List.getElem?_eq_some_iff.mp hget
      exact (setElement_of_check hget hcheck).trans (by rw [List.set_getElem_self])
    | _ => cases hchild

end Datum

/-- Writing back along a plan what was read along it changes nothing: in any document, and in any
structured value in which the values of all records conform to their schemas. -/
theorem Plan.write_back (plan : Plan) :
    (∀ (root : Json) (values : PathMap Json), plan.read root = .ok values →
      plan.write root values = .ok root) ∧
    ∀ (root : Datum) (values : PathMap Datum), root.WellFormed → plan.read root = .ok values →
      plan.write root values = .ok root := by
  constructor
  · intro root values h
    exact Plan.write_eq_self h fun _ _ node _ => node.takesBack
  · intro root values hroot h
    refine Plan.write_eq_self h fun tasks l node hreach => ?_
    exact (hreach.inherit (fun _ _ _ hnode hchild => hnode.child hchild) hroot).takesBack

/-- What is under a field of all elements of an array, of which one is null and another one does
not have the field; and the elements of an array of a record. -/
theorem Plan.write_back_members_and_elements :
    Plan.write ⟨"$.l[*].b", [.field "l", .elements .every, .field "b"]⟩
        (Json.object [("l", .array [.object [("b", .array [.null])], .null, .object []])])
        (SortedMap.ofList [("$.l[0].b", .array [.null])]) =
      .ok (.object [("l", .array [.object [("b", .array [.null])], .null, .object []])]) ∧
    Plan.write ⟨"$.l[*]", [.field "l", .elements .every]⟩
        (Datum.struct (.struct {} [⟨"l", 0, .array {} (.scalar .string {})⟩])
          [some (.array [.scalar (.string "a"), .scalar (.string "b")])])
        (SortedMap.ofList [("$.l[0]", .scalar (.string "a")), ("$.l[1]", .scalar (.string "b"))]) =
      .ok (.struct (.struct {} [⟨"l", 0, .array {} (.scalar .string {})⟩])
        [some (.array [.scalar (.string "a"), .scalar (.string "b")])]) := by
  refine ⟨(Plan.write_back _).1 _ _ rfl, (Plan.write_back _).2 _ _ ?_ rfl⟩
  refine .struct rfl ?_ (by simp)
  intro i field value hfield hslot
  obtain rfl : i = 0 := by
    have hlt := (List.getElem?_eq_some_iff.mp hslot).1
    simpa using hlt
  obtain rfl : ⟨"l", 0, .array {} (.scalar .string {})⟩ = field := by
    simpa [Schema.fields] using hfield
  obtain rfl : Datum.array [.scalar (.string "a"), .scalar (.string "b")] = value := by
    simpa using hslot
  simp [Datum.type, Scalar.type]

end RecordCipher
