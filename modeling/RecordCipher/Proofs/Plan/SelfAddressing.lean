import RecordCipher.Proofs.Expression.Canonical
import RecordCipher.Proofs.Plan.Denotation
import RecordCipher.Proofs.Tree.Document
import RecordCipher.Proofs.Tree.Structured

/-!
# Locations are expressions of themselves

The text of a location is written like an expression without wildcards. When its names can stand
bare it is one, and even the canonical text of it: each field is followed by the position that was
chosen for its selection. Read along in the same record, this expression takes the steps of the
location and no others. It meets no failure, since it asks of the nodes on its way for less than
the expression that the location was found by, and it comes to the one node at the location.

## Main definitions

* `Location.Step.task`: the task that takes one step only
* `settle`: segments with positions in place of their selections
* `Indexable`: the positions in the arrays of a record can be written in expressions

## Main results

* `Reaches.readable_steps`, `Reaches.steps_iff`: following the steps of a location
* `tasks_settle`, `Expression.parseWithin_text`: the expression that a location is
* `Reaches.index_lt`: the positions in the location of a node can be written
* `Expression.read_location`: reading along the texts of the locations that were found
-/

namespace RecordCipher

/-! ## Following the steps of a location -/

/-- The task that takes a step and no other. -/
def Location.Step.task : Location.Step → Task
  | .field name => .field name
  | .index i => .elements (.index i)

theorem Location.Step.task_selects_iff (step other : Location.Step) :
    step.task.selects other = true ↔ step = other := by
  cases step with
  | field name => simp [task, Task.selects_field_iff, eq_comm (a := other)]
  | index i =>
    rw [task, Task.selects_elements_iff]
    simp [Selection.selects, eq_comm (a := other)]

section

variable {α : Type} [Tree α] {tasks : List Task} {node reached : α} {l : Location}

/-- A task that takes one of the steps of another one asks for no more than that one does. -/
theorem Task.Fits.step {task : Task} {step : Location.Step} (h : task.Fits node)
    (hsel : task.selects step = true) : step.task.Fits node := by
  cases task with
  | field name =>
    obtain rfl := (selects_field_iff name step).mp hsel
    exact h
  | elements selection =>
    obtain ⟨i, rfl, hi⟩ := (selects_elements_iff selection step).mp hsel
    obtain ⟨items, helements, hitems⟩ := h
    refine ⟨items, helements, fun k item hget hk => hitems k item hget ?_⟩
    obtain rfl : i = k := by simpa [Selection.selects] using hk
    exact hi

/-- The steps to a node that tasks lead to can be followed where the tasks can. -/
theorem Reaches.readable_steps (h : Reaches tasks node l reached) (hread : Readable tasks node) :
    Readable (l.map Location.Step.task) node := by
  induction tasks generalizing node l with
  | nil =>
    obtain ⟨rfl, -⟩ := h
    trivial
  | cons task rest ih =>
    cases l with
    | nil => exact h.elim
    | cons step below =>
      obtain ⟨hsel, child, hchild, hnull, hbelow⟩ := h
      refine ⟨hread.1.step hsel, fun other child' hother hchild' _ => ?_⟩
      -- the step is the only one, and it leads to one node
      obtain rfl := (step.task_selects_iff other).mp hother
      obtain rfl : child = child' := by simpa [hchild] using hchild'
      exact ih hbelow (hread.2 step child hsel hchild hnull)

theorem forall₂_steps_iff (l l' : Location) :
    List.Forall₂ (fun (task : Task) step => task.selects step = true)
      (l.map Location.Step.task) l' ↔ l = l' := by
  simp only [List.forall₂_map_left_iff, Location.Step.task_selects_iff, List.forall₂_eq_eq_eq]

/-- The steps to a node that tasks lead to lead to this node, and to no other. -/
theorem Reaches.steps_iff (h : Reaches tasks node l reached) (l' : Location) (other : α) :
    Reaches (l.map Location.Step.task) node l' other ↔ l = l' ∧ reached = other := by
  have hland := (reaches_iff_landing.mp h).2
  rw [reaches_iff_landing, forall₂_steps_iff]
  refine and_congr_right ?_
  rintro rfl
  rw [hland, Option.some.injEq]

/-- Reading along the steps of a location that was found finds the node there, and no other. -/
theorem Plan.read_steps {plan : Plan} {root : α} (hread : Readable plan.tasks root)
    (h : Reaches plan.tasks root l node) (text : String) :
    ∃ found, Plan.read ⟨text, l.map Location.Step.task⟩ root = .ok found ∧
      found.entries = [(l.text, node)] := by
  obtain ⟨found, hfound⟩ :=
    (Plan.read_ok_iff ⟨text, l.map Location.Step.task⟩ root).mpr (h.readable_steps hread)
  refine ⟨found, hfound, found.inOrder.ext (List.pairwise_singleton _ _) ?_⟩
  rintro ⟨path, other⟩
  rw [← SortedMap.get?_eq_some_iff, Plan.get?_of_read hfound, List.mem_singleton, Prod.mk.injEq]
  simp only [h.steps_iff]
  constructor
  · rintro ⟨_, rfl, rfl, rfl⟩
    exact ⟨rfl, rfl⟩
  · rintro ⟨rfl, rfl⟩
    exact ⟨l, rfl, rfl, rfl⟩

end

/-! ## The segments of a location -/

/-- The segments with the positions of a choice in place of their selections, written bare. -/
def settle : List Segment → List Nat → List Segment
  | [], _ => []
  | s :: rest, choice =>
    match s.selection, choice with
    | some _, i :: choice => ⟨s.name, .dot, some (.index i)⟩ :: settle rest choice
    | _, choice => ⟨s.name, .dot, none⟩ :: settle rest choice

section

variable {segments : List Segment} {choice : List Nat} {l : Location}

/-- The tasks of the segments are the steps of the location. -/
theorem tasks_settle (h : locate segments choice = some l) :
    (settle segments choice).flatMap Segment.tasks = l.map Location.Step.task := by
  induction segments generalizing choice l with
  | nil =>
    cases choice with
    | nil =>
      obtain rfl : [] = l := by simpa [locate] using h
      rfl
    | cons i rest => cases h
  | cons s rest ih =>
    obtain ⟨name, written, selection⟩ := s
    unfold locate at h
    split at h
    · next hnone =>
      obtain rfl : selection = none := hnone
      obtain ⟨below, hbelow, rfl⟩ := Option.map_eq_some_iff.mp h
      simp [settle, Segment.tasks, Location.Step.task, ih hbelow]
    · cases h
    · next selection i choice hsome =>
      split at h
      · obtain ⟨below, hbelow, rfl⟩ := Option.map_eq_some_iff.mp h
        obtain rfl : _ = some selection := hsome
        simp [settle, Segment.tasks, Location.Step.task, ih hbelow]
      · cases h

/-- The segments are written bare, and have the names of those they are made from. -/
theorem written_settle {s : Segment} (h : s ∈ settle segments choice) :
    s.written = .dot ∧ ∃ other ∈ segments, s.name = other.name := by
  induction segments generalizing choice with
  | nil => cases h
  | cons first rest ih =>
    have others : ∀ {choice}, s ∈ settle rest choice →
        s.written = .dot ∧ ∃ other ∈ first :: rest, s.name = other.name := by
      intro choice hs
      obtain ⟨hwritten, other, hother, hname⟩ := ih hs
      exact ⟨hwritten, other, List.mem_cons_of_mem _ hother, hname⟩
    unfold settle at h
    split at h <;> rcases List.mem_cons.mp h with rfl | h
    · exact ⟨rfl, first, List.mem_cons_self, rfl⟩
    · exact others h
    · exact ⟨rfl, first, List.mem_cons_self, rfl⟩
    · exact others h

end

/-! ## Texts of tasks -/

/-- A task as it is written in an expression whose names stand bare, as characters. -/
def Task.chars : Task → List Char
  | .field name => '.' :: name.toList
  | .elements selection => '[' :: (selection.text.toList ++ [']'])

theorem Location.Step.chars_task (step : Location.Step) : step.task.chars = step.chars := by
  cases step with
  | field name => rw [task, Task.chars, chars_field]
  | index i => simp [task, Task.chars, chars_index, Selection.text]

/-- A segment whose name can stand bare is written canonically as its tasks are. -/
theorem Segment.canonical_eq_tasks {s : Segment} (hname : isIdentifier s.name = true) :
    s.canonical.toList = s.tasks.flatMap Task.chars := by
  obtain ⟨name, written, selection⟩ := s
  cases selection with
  | none => simp [canonical, canonicalField, hname, tasks, Task.chars]
  | some selection => simp [canonical, canonicalField, hname, tasks, Task.chars]

namespace Expression

theorem taskCount_eq_length (e : Expression) : e.taskCount = e.tasks.length := by
  unfold taskCount tasks
  induction e.segments with
  | nil => rfl
  | cons s rest ih =>
    rw [List.foldr_cons, ih, List.flatMap_cons, List.length_append, Segment.taskCount,
      Segment.tasks]
    cases s.selection <;> simp

/-- An expression whose tasks are the steps of a location, and whose names can stand bare, has the
text of the location for its canonical text. -/
theorem canonical_eq_text {e : Expression} (names : ∀ s ∈ e.segments, isIdentifier s.name = true)
    {l : Location} (htasks : e.tasks = l.map Location.Step.task) : e.canonical = l.text := by
  have hsegments : (e.segments.flatMap fun s => s.canonical.toList) =
      l.flatMap Location.Step.chars := by
    calc (e.segments.flatMap fun s => s.canonical.toList)
        = e.segments.flatMap fun s => s.tasks.flatMap Task.chars :=
          List.flatMap_congr fun s hs => Segment.canonical_eq_tasks (names s hs)
      _ = e.tasks.flatMap Task.chars := List.flatMap_assoc.symm
      _ = l.flatMap Location.Step.chars := by
        rw [htasks, List.flatMap_map]
        simp only [Location.Step.chars_task]
  rw [← String.toList_inj]
  simp only [canonical, Location.text, String.toList_append, String.toList_join, List.flatMap_map,
    hsegments]
  rfl

/-- The text of a location is an expression: the one whose tasks are its steps. -/
theorem parseWithin_text {e : Expression}
    (bare : ∀ s ∈ e.segments, s.written = .dot ∧ isIdentifier s.name = true) {l : Location}
    (htasks : e.tasks = l.map Location.Step.task) (hsource : e.source = l.text)
    (hindex : ∀ i, .index i ∈ l → i < UInt64.size) {limits : Limits}
    (hlength : utf8Length l.text ≤ limits.maxLength) (hcount : e.taskCount ≤ limits.maxTasks) :
    parseWithin limits l.text = .ok e := by
  have hcanonical : e.canonical = l.text := canonical_eq_text (fun s hs => (bare s hs).2) htasks
  -- the segments are written canonically already
  have hrecast : e.segments.map Segment.recast = e.segments := by
    refine (List.map_congr_left fun s hs => ?_).trans (List.map_id _)
    obtain ⟨hwritten, hname⟩ := bare s hs
    simp only [Segment.recast, hname, if_true, id, ← hwritten]
  have hwritable : ∀ s ∈ e.segments, s.Writable := by
    intro s hs i hi
    have htask : Task.elements (.index i) ∈ e.tasks :=
      List.mem_flatMap.mpr ⟨s, hs, by simp [Segment.tasks, hi]⟩
    rw [htasks, List.mem_map] at htask
    obtain ⟨step, hstep, heq⟩ := htask
    cases step with
    | field name => cases heq
    | index k =>
      obtain rfl : k = i := by simpa [Location.Step.task] using heq
      exact hindex k hstep
  have htokens := tokenize_canonical hwritable
  rw [hcanonical, hrecast] at htokens
  rw [parseWithin, mapError_eq_ok_iff, readWithin_eq_ok_iff]
  exact ⟨hlength, hsource, htokens, hcount⟩

end Expression

/-! ## Positions that can be written -/

section

variable {α : Type} [Tree α] {node : α}

/-- Every array in a record is short enough for the positions of its items to be written in
expressions. No memory holds a longer one. -/
def Indexable (root : α) : Prop :=
  ∀ l node items, nodeAt? l root = .ok (some node) → Tree.elements? node = some items →
    items.length ≤ UInt64.size

theorem indexable_iff : Indexable node ↔
    (∀ items, Tree.elements? node = some items → items.length ≤ UInt64.size) ∧
      ∀ step child, Tree.child? node step = .ok (some child) → Indexable child := by
  constructor
  · intro h
    refine ⟨fun items => h [] node items rfl, fun step child hchild l below items hbelow => ?_⟩
    refine h (step :: l) below items ?_
    rw [nodeAt?_cons, hchild]
    exact hbelow
  · rintro ⟨hself, hbelow⟩ l below items hnode helements
    cases l with
    | nil =>
      obtain rfl : node = below := by simpa [nodeAt?] using hnode
      exact hself items helements
    | cons step l =>
      rw [nodeAt?_cons] at hnode
      rcases hchild : Tree.child? node step with e | _ | child <;> rw [hchild] at hnode
      · cases hnode
      · cases hnode
      · exact hbelow step child hchild l below items hnode helements

/-- A node without children. -/
theorem indexable_of_leaf (hself : Tree.elements? node = none)
    (hleaf : ∀ name child, Tree.field? node name ≠ .ok (some child)) : Indexable node := by
  refine indexable_iff.mpr ⟨by simp [hself], fun step child hchild => ?_⟩
  cases step with
  | field name => exact absurd hchild (hleaf name child)
  | index i => simp [Tree.child?, Tree.element?, hself] at hchild

/-- An array, which has children at positions only. -/
theorem indexable_of_elements {items : List α} (hself : Tree.elements? node = some items)
    (hlength : items.length ≤ UInt64.size)
    (hfields : ∀ name child, Tree.field? node name ≠ .ok (some child))
    (hitems : ∀ item ∈ items, Indexable item) : Indexable node := by
  refine indexable_iff.mpr ⟨by simpa [hself] using hlength, fun step child hchild => ?_⟩
  cases step with
  | field name => exact absurd hchild (hfields name child)
  | index i =>
    simp only [Tree.child?, Tree.element?, hself, Option.bind_some, Except.ok.injEq] at hchild
    exact hitems child (List.mem_of_getElem? hchild)

/-- The positions on the way to a node can be written. -/
theorem Reaches.index_lt {tasks : List Task} {l : Location} {reached : α}
    (h : Reaches tasks node l reached) (hnode : Indexable node) {i : Nat} (hi : .index i ∈ l) :
    i < UInt64.size := by
  induction tasks generalizing node l with
  | nil =>
    obtain ⟨rfl, -⟩ := h
    cases hi
  | cons task rest ih =>
    cases l with
    | nil => cases hi
    | cons step below =>
      obtain ⟨-, child, hchild, -, hbelow⟩ := h
      obtain ⟨hself, hchildren⟩ := indexable_iff.mp hnode
      rcases List.mem_cons.mp hi with rfl | hi
      · simp only [Tree.child?, Tree.element?, Except.ok.injEq, Option.bind_eq_some_iff] at hchild
        obtain ⟨items, helements, hget⟩ := hchild
        have hlt := (List.getElem?_eq_some_iff.mp hget).1
        exact Nat.lt_of_lt_of_le hlt (hself items helements)
      · exact ih hbelow (hchildren step child hchild) hi

end

/-- An object of members that are so. -/
theorem Json.indexable_object {members : List (String × Json)}
    (h : ∀ entry ∈ members, Indexable entry.2) : Indexable (Json.object members) := by
  refine indexable_iff.mpr ⟨nofun, fun step child hchild => ?_⟩
  cases step with
  | field name => exact h _ (mem_of_member? (Except.ok.inj hchild))
  | index i => cases hchild

/-- A record with values in its slots that are so. -/
theorem Datum.indexable_struct {schema : Schema} {slots : List (Option Datum)}
    (h : ∀ value, some value ∈ slots → Indexable value) :
    Indexable (Datum.struct schema slots) := by
  refine indexable_iff.mpr ⟨nofun, fun step child hchild => ?_⟩
  cases step with
  | field name =>
    obtain ⟨_, _, _, heq, -, hslot⟩ := Datum.child?_field_eq_ok hchild
    cases heq
    exact h child (List.mem_of_getElem? (Option.join_eq_some_iff.mp hslot))
  | index i => cases hchild

/-! ## Reading along what was found -/

section

variable {α : Type} [Tree α] {node : α}

namespace Expression

/-- What is found along an expression whose names can stand bare is filed under texts that are
expressions themselves, with as many tasks. Reading along one of them finds one node in the same
record, and this is the node that was filed under the text. -/
theorem read_location {e : Expression} (names : ∀ s ∈ e.segments, isIdentifier s.name = true)
    {root : α} (hroot : Indexable root) {values : PathMap α}
    (h : e.plan.read root = .ok values) {path : String} {node : α}
    (hm : (path, node) ∈ values.entries) {limits : Limits}
    (hlength : utf8Length path ≤ limits.maxLength) (hcount : e.taskCount ≤ limits.maxTasks) :
    ∃ e', parseWithin limits path = .ok e' ∧ e'.taskCount = e.taskCount ∧
      ∃ found, e'.plan.read root = .ok found ∧ found.entries = [(path, node)] := by
  obtain ⟨l, rfl, hreach⟩ :=
    (Plan.get?_of_read h path node).mp ((SortedMap.get?_eq_some_iff _ _ _).mpr hm)
  have hread : Readable e.plan.tasks root := (Plan.read_ok_iff _ _).mp ⟨values, h⟩
  obtain ⟨choice, hl⟩ := (forall₂_tasks_iff _ _).mp (reaches_iff_landing.mp hreach).1
  let settled : Expression := ⟨l.text, settle e.segments choice⟩
  have htasks : settled.tasks = l.map Location.Step.task := tasks_settle hl
  have hsettled : settled.taskCount = e.taskCount := by
    rw [taskCount_eq_length, htasks, List.length_map, hreach.length_eq, taskCount_eq_length]
    rfl
  refine ⟨settled, ?_, hsettled, ?_⟩
  · refine parseWithin_text (fun s hs => ?_) htasks rfl
      (fun i hi => hreach.index_lt hroot hi) hlength (hsettled.trans_le hcount)
    obtain ⟨hwritten, other, hother, hname⟩ := written_settle hs
    exact ⟨hwritten, hname ▸ names other hother⟩
  · rw [plan, htasks]
    exact Plan.read_steps hread hreach l.text

end Expression

end

/-- The last item behind a null one, in a member whose name is quoted and not in ASCII; and an
item of an array of a record. -/
theorem Expression.read_location_members_and_elements :
    (∃ e, parseWithin {} "$.größe[2]" = .ok e ∧ e.taskCount = 2 ∧ ∃ found,
      e.plan.read (Json.object [("größe", .array [.string "a", .null, .string "b"])]) = .ok found ∧
      found.entries = [("$.größe[2]", .string "b")]) ∧
    ∃ e, parseWithin {} "$.l[1]" = .ok e ∧ e.taskCount = 2 ∧ ∃ found,
      e.plan.read (Datum.struct (.struct {} [⟨"l", 0, .array {} (.scalar .string {})⟩])
        [some (.array [.scalar (.string "a"), .scalar (.string "b")])]) = .ok found ∧
      found.entries = [("$.l[1]", .scalar (.string "b"))] := by
  constructor
  · refine read_location (e := ⟨"$['größe'][*]", [⟨"größe", .bracket, some .every⟩]⟩) ?_ ?_ rfl
      ((SortedMap.get?_eq_some_iff _ _ _).mp rfl) ?_ ?_
    · decide
    · have member : Indexable (Json.array [.string "a", .null, .string "b"]) := by
        refine indexable_of_elements rfl (by decide) nofun fun item hm => ?_
        simp only [List.mem_cons, List.not_mem_nil, or_false] at hm
        rcases hm with rfl | rfl | rfl <;> exact indexable_of_leaf rfl nofun
      refine Json.indexable_object fun entry hm => ?_
      obtain rfl := List.mem_singleton.mp hm
      exact member
    · decide
    · decide
  · refine read_location (e := ⟨"$.l[*]", [⟨"l", .dot, some .every⟩]⟩) ?_ ?_ rfl
      ((SortedMap.get?_eq_some_iff _ _ _).mp rfl) ?_ ?_
    · decide
    · refine Datum.indexable_struct fun value hm => ?_
      obtain rfl : value = Datum.array [.scalar (.string "a"), .scalar (.string "b")] := by
        simpa using hm
      refine indexable_of_elements rfl (by decide) nofun fun item hm => ?_
      simp only [List.mem_cons, List.not_mem_nil, or_false] at hm
      rcases hm with rfl | rfl <;> exact indexable_of_leaf rfl nofun
    · decide
    · decide

end RecordCipher
