import RecordCipher.Plan.Read
import RecordCipher.Proofs.Computation
import RecordCipher.Proofs.LocationText
import RecordCipher.Proofs.SortedMap
import RecordCipher.Proofs.Tree.Lawful

/-!
# What reading along a plan finds

Reading goes down level by level; what it finds can be said for each location on its own. A
node is found when every step to it is one that the plan takes, and none of the nodes on the
way, itself included, is null. Reading fails when some node that is found on the way does not
have the shape that the next task needs.

## Main definitions

* `Task.Fits`: the nodes at which a task can be followed
* `Readable`: the nodes below which all tasks can be followed
* `Reaches`: the nodes that tasks lead to, with their locations

## Main results

* `frontier_ok_iff`, `mem_frontier`: going down level by level succeeds on readable nodes, and
  finds the nodes that the tasks lead to
* `Plan.read_ok_iff`, `Plan.get?_of_read`: the same for a plan, where each node found is filed
  under the text of its location
-/

namespace RecordCipher

section

variable {α : Type} [Tree α]

/-! ## Following tasks -/

/-- A task can be followed at a node: the field can be asked for, or the node is an array in
which no selected element is itself an array. -/
def Task.Fits : Task → α → Prop
  | .field name, node => ∃ child, Tree.field? node name = .ok child
  | .elements selection, node => ∃ items, Tree.elements? node = some items ∧
      ∀ i item, items[i]? = some item → selection.selects i = true → Tree.isNull item = false →
        Tree.isArray item = false

/-- The first task can be followed at a node, and the others below the nodes it selects. -/
def Readable : List Task → α → Prop
  | [], _ => True
  | task :: rest, node => task.Fits node ∧
      ∀ step child, task.selects step = true → Tree.child? node step = .ok (some child) →
        Tree.isNull child = false → Readable rest child

/-- Tasks lead from a node along a location to another node, over nodes that are not null. -/
def Reaches : List Task → α → Location → α → Prop
  | [], node, l, reached => l = [] ∧ reached = node
  | _ :: _, _, [], _ => False
  | task :: rest, node, step :: below, reached => task.selects step = true ∧
      ∃ child, Tree.child? node step = .ok (some child) ∧ Tree.isNull child = false ∧
        Reaches rest child below reached

theorem Reaches.along {tasks : List Task} {node reached : α} {l : Location}
    (h : Reaches tasks node l reached) : Along tasks l := by
  induction tasks generalizing node l with
  | nil => simp [h.1, Along]
  | cons task rest ih =>
    cases l with
    | nil => exact h.elim
    | cons step below =>
      obtain ⟨hsel, child, -, -, hbelow⟩ := h
      exact ⟨hsel, ih hbelow⟩

theorem Reaches.length_eq {tasks : List Task} {l : Location} {node x : α}
    (h : Reaches tasks node l x) : l.length = tasks.length := by
  induction tasks generalizing node l with
  | nil => simp [h.1]
  | cons task rest ih =>
    cases l with
    | nil => exact h.elim
    | cons step below =>
      obtain ⟨-, child, -, -, hbelow⟩ := h
      simp [ih hbelow]

theorem Reaches.nodeAt? {tasks : List Task} {node reached : α} {l : Location}
    (h : Reaches tasks node l reached) : nodeAt? l node = .ok (some reached) := by
  induction tasks generalizing node l with
  | nil => simp [h.1, h.2]
  | cons task rest ih =>
    cases l with
    | nil => exact h.elim
    | cons step below =>
      obtain ⟨-, child, hchild, -, hbelow⟩ := h
      rw [nodeAt?_cons, hchild]
      exact ih hbelow

/-- There is one node at a location. -/
theorem Reaches.unique {tasks tasks' : List Task} {node a b : α} {l : Location}
    (ha : Reaches tasks node l a) (hb : Reaches tasks' node l b) : a = b := by
  have h := ha.nodeAt?.symm.trans hb.nodeAt?
  simpa using h

/-! ## One task at one node -/

omit [Tree α] in
/-- A selected element from position `i` on: the first item, or one of the rest. -/
theorem exists_selected_cons {selection : Selection} {i : Nat} {item : α} {rest : List α}
    {P : Nat → α → Prop} :
    (∃ k x, (item :: rest)[k]? = some x ∧ selection.selects (i + k) = true ∧ P (i + k) x) ↔
      selection.selects i = true ∧ P i item ∨
        ∃ k x, rest[k]? = some x ∧ selection.selects (i + 1 + k) = true ∧ P (i + 1 + k) x := by
  constructor
  · rintro ⟨k, x, hget, hsel, hP⟩
    cases k with
    | zero =>
      obtain rfl : item = x := by simpa using hget
      exact .inl ⟨hsel, hP⟩
    | succ k =>
      have shift : i + (k + 1) = i + 1 + k := by omega
      rw [shift] at hsel hP
      exact .inr ⟨k, x, by simpa using hget, hsel, hP⟩
  · rintro (⟨hsel, hP⟩ | ⟨k, x, hget, hsel, hP⟩)
    · exact ⟨0, item, rfl, hsel, hP⟩
    · have shift : i + (k + 1) = i + 1 + k := by omega
      exact ⟨k + 1, x, by simpa using hget, by rwa [shift], by rwa [shift]⟩

/-- What selecting elements yields are the selected ones that are not null. -/
theorem mem_selectedElements {here : Location} {selection : Selection} {i : Nat}
    {items : List α} {out : List (Reached α)}
    (h : selectedElements here selection i items = .ok out) (r : Reached α) :
    r ∈ out ↔ ∃ k x, items[k]? = some x ∧ selection.selects (i + k) = true ∧
      Tree.isNull x = false ∧ r = ⟨here.index (i + k), x⟩ := by
  -- Induction on the items, from whatever position they are counted.
  induction items generalizing i out with
  | nil =>
    obtain rfl : [] = out := by simpa [selectedElements] using h
    simp
  | cons item rest ih =>
    rw [exists_selected_cons (P := fun k x => Tree.isNull x = false ∧ r = ⟨here.index k, x⟩)]
    unfold selectedElements at h
    split at h
    · next hc =>
      rw [Bool.and_eq_true, Bool.not_eq_true'] at hc
      split at h
      · -- a nested array: the selection fails
        cases h
      · obtain ⟨others, hothers, hout⟩ := bind_eq_ok_iff.mp h
        obtain rfl : _ = out := by simpa [pure, Except.pure] using hout
        rw [List.mem_cons, ih hothers]
        simp [hc]
    · next hc =>
      have hc : selection.selects i = true → Tree.isNull item = false → False := by
        simpa using hc
      rw [ih h]
      exact ⟨.inr, fun h => h.resolve_left fun h => hc h.1 h.2.1⟩

/-- Selecting elements succeeds when no selected one is itself an array. -/
theorem selectedElements_ok_iff (here : Location) (selection : Selection) (i : Nat)
    (items : List α) :
    (∃ out, selectedElements here selection i items = .ok out) ↔
      ¬ ∃ k x, items[k]? = some x ∧ selection.selects (i + k) = true ∧
        Tree.isNull x = false ∧ Tree.isArray x = true := by
  induction items generalizing i with
  | nil => simp [selectedElements]
  | cons item rest ih =>
    rw [exists_selected_cons (P := fun _ x => Tree.isNull x = false ∧ Tree.isArray x = true),
      not_or, ← ih (i + 1), selectedElements]
    split
    · next hc =>
      rw [Bool.and_eq_true, Bool.not_eq_true'] at hc
      split
      · next harr => simp [hc, harr]
        -- the first item is selected, and it matters whether it is an array
      · next harr => simp only [bind_eq_ok_iff]; simp [hc, harr, pure, Except.pure]
    · next hc =>
      have hc : ¬ (selection.selects i = true ∧ Tree.isNull item = false ∧
          Tree.isArray item = true) := by simp_all
      rw [and_iff_right hc]

/-- A task can be followed at the nodes that it fits. -/
theorem Task.below_ok_iff (task : Task) (here : Reached α) :
    (∃ out, task.below here = .ok out) ↔ task.Fits here.node := by
  cases task with
  | field name =>
    simp only [below, Fits]
    rcases Tree.field? here.node name with e | _ | child <;> simp
  | elements selection =>
    simp only [below, Fits]
    cases helems : Tree.elements? here.node with
    | none => simp
    | some items =>
      rw [selectedElements_ok_iff]
      simp

/-- What a task selects below a node are the nodes one step below that are not null, where the
task takes the step. -/
theorem Task.mem_below {task : Task} {here : Reached α} {out : List (Reached α)}
    (h : task.below here = .ok out) (r : Reached α) :
    r ∈ out ↔ ∃ step child, task.selects step = true ∧
      Tree.child? here.node step = .ok (some child) ∧ Tree.isNull child = false ∧
        r = ⟨here.location ++ [step], child⟩ := by
  cases task with
  | field name =>
    simp only [selects_field_iff, exists_and_left, exists_eq_left, Tree.child?]
    simp only [below] at h
    rcases hf : Tree.field? here.node name with e | _ | child <;> simp only [hf] at h
    · cases h
    · obtain rfl : [] = out := by simpa using h
      simp
    · obtain rfl : _ = out := by simpa using h
      cases hn : Tree.isNull child <;> simp [hn, Location.field]
  | elements selection =>
    simp only [below] at h
    cases helems : Tree.elements? here.node with
    | none => simp [helems] at h
    | some items =>
      simp only [helems] at h
      rw [mem_selectedElements h]
      constructor
      · rintro ⟨k, x, hget, hsel, hnull, rfl⟩
        rw [Nat.zero_add] at hsel ⊢
        exact ⟨.index k, x, hsel, by rw [Tree.child?_index helems, hget], hnull, rfl⟩
      · rintro ⟨step, x, hsel, hchild, hnull, rfl⟩
        obtain ⟨k, rfl, hk⟩ := (selects_elements_iff selection step).mp hsel
        rw [Tree.child?_index helems] at hchild
        exact ⟨k, x, by simpa using hchild, by rwa [Nat.zero_add], hnull,
          by simp [Location.index]⟩

/-! ## Level by level -/

theorem advance_ok_iff (task : Task) (reached : List (Reached α)) :
    (∃ out, advance task reached = .ok out) ↔ ∀ here ∈ reached, task.Fits here.node := by
  induction reached with
  | nil => simp [advance]
  | cons here rest ih =>
    rw [List.forall_mem_cons, ← ih, ← Task.below_ok_iff]
    simp only [advance, bind_eq_ok_iff, pure, Except.pure]
    constructor
    · rintro ⟨_, below, hbelow, others, hothers, -⟩
      exact ⟨⟨below, hbelow⟩, others, hothers⟩
    · rintro ⟨⟨below, hbelow⟩, others, hothers⟩
      exact ⟨_, below, hbelow, others, hothers, rfl⟩

theorem mem_advance {task : Task} {reached out : List (Reached α)}
    (h : advance task reached = .ok out) (r : Reached α) :
    r ∈ out ↔ ∃ here ∈ reached, ∃ step child, task.selects step = true ∧
      Tree.child? here.node step = .ok (some child) ∧ Tree.isNull child = false ∧
        r = ⟨here.location ++ [step], child⟩ := by
  induction reached generalizing out with
  | nil =>
    obtain rfl : [] = out := by simpa [advance] using h
    simp
  | cons here rest ih =>
    simp only [advance, bind_eq_ok_iff, pure, Except.pure] at h
    obtain ⟨below, hbelow, others, hothers, hout⟩ := h
    obtain rfl : below ++ others = out := by simpa using hout
    rw [List.mem_append, Task.mem_below hbelow, ih hothers]
    simp only [List.exists_mem_cons_iff]

/-- Going down level by level succeeds on the nodes below which all tasks can be followed. -/
theorem frontier_ok_iff (tasks : List Task) (reached : List (Reached α)) :
    (∃ out, frontier tasks reached = .ok out) ↔ ∀ here ∈ reached, Readable tasks here.node := by
  -- Induction on the tasks, for whatever nodes were reached before.
  induction tasks generalizing reached with
  | nil => simp [frontier, Readable]
  | cons task rest ih =>
    simp only [frontier, bind_eq_ok_iff]
    constructor
    · rintro ⟨out, level, hlevel, hout⟩ here hhere
      have fits := (advance_ok_iff task reached).mp ⟨level, hlevel⟩ here hhere
      refine ⟨fits, fun step child hsel hchild hnull => ?_⟩
      exact (ih level).mp ⟨out, hout⟩ ⟨here.location ++ [step], child⟩
        ((mem_advance hlevel _).mpr ⟨here, hhere, step, child, hsel, hchild, hnull, rfl⟩)
    · intro h
      obtain ⟨level, hlevel⟩ := (advance_ok_iff task reached).mpr fun here hm => (h here hm).1
      obtain ⟨out, hout⟩ := (ih level).mpr fun r hr => by
        obtain ⟨here, hm, step, child, hsel, hchild, hnull, rfl⟩ := (mem_advance hlevel r).mp hr
        exact (h here hm).2 step child hsel hchild hnull
      exact ⟨out, level, hlevel, hout⟩

/-- Going down level by level finds the nodes that the tasks lead to. -/
theorem mem_frontier {tasks : List Task} {reached out : List (Reached α)}
    (h : frontier tasks reached = .ok out) (l : Location) (node : α) :
    ⟨l, node⟩ ∈ out ↔ ∃ here ∈ reached, ∃ below, l = here.location ++ below ∧
      Reaches tasks here.node below node := by
  -- Induction on the tasks: those after the first one start from the next level.
  induction tasks generalizing reached with
  | nil =>
    obtain rfl : reached = out := by simpa [frontier] using h
    constructor
    · exact fun hm => ⟨_, hm, [], by simp, rfl, rfl⟩
    · rintro ⟨here, hm, _, rfl, rfl, rfl⟩
      simpa using hm
  | cons task rest ih =>
    simp only [frontier, bind_eq_ok_iff] at h
    obtain ⟨level, hlevel, hout⟩ := h
    rw [ih hout]
    constructor
    · rintro ⟨r, hr, below, rfl, hreach⟩
      obtain ⟨here, hm, step, child, hsel, hchild, hnull, rfl⟩ := (mem_advance hlevel r).mp hr
      exact ⟨here, hm, step :: below, by simp, hsel, child, hchild, hnull, hreach⟩
    · rintro ⟨here, hm, below, rfl, hreach⟩
      cases below with
      | nil => exact hreach.elim
      | cons step below =>
        obtain ⟨hsel, child, hchild, hnull, hreach⟩ := hreach
        exact ⟨⟨here.location ++ [step], child⟩,
          (mem_advance hlevel _).mpr ⟨here, hm, step, child, hsel, hchild, hnull, rfl⟩,
          below, by simp, hreach⟩

theorem reach_ok_iff (tasks : List Task) (root : α) :
    (∃ out, reach tasks root = .ok out) ↔ Readable tasks root := by
  simp [reach, frontier_ok_iff]

theorem mem_reach {tasks : List Task} {root : α} {out : List (Reached α)}
    (h : reach tasks root = .ok out) (l : Location) (node : α) :
    ⟨l, node⟩ ∈ out ↔ Reaches tasks root l node := by
  rw [mem_frontier h]
  simp [Location.root]

/-! ## Reading along a plan -/

/-- Along one plan, no two nodes that are found are filed under one text. -/
theorem Reaches.eq_of_text {tasks : List Task} {root a b : α} {l l' : Location}
    (ha : Reaches tasks root l a) (hb : Reaches tasks root l' b) (htext : l.text = l'.text) :
    l = l' ∧ a = b := by
  obtain rfl := ha.along.text_injective hb.along htext
  exact ⟨rfl, ha.unique hb⟩

/-- Reading succeeds on the records below whose root the tasks of the plan can be followed. -/
theorem Plan.read_ok_iff (plan : Plan) (root : α) :
    (∃ values, plan.read root = .ok values) ↔ Readable plan.tasks root := by
  rw [← reach_ok_iff, Plan.read]
  simp only [map_eq_ok_iff]
  constructor
  · rintro ⟨_, out, hout, -⟩
    exact ⟨out, hout⟩
  · rintro ⟨out, hout⟩
    exact ⟨_, out, hout, rfl⟩

/-- Reading finds the nodes that the tasks of the plan lead to, each under the text of its
location. -/
theorem Plan.get?_of_read {plan : Plan} {root : α} {values : PathMap α}
    (h : plan.read root = .ok values) (path : String) (node : α) :
    values.get? path = some node ↔
      ∃ l, l.text = path ∧ Reaches plan.tasks root l node := by
  rw [Plan.read, map_eq_ok_iff] at h
  obtain ⟨out, hout, rfl⟩ := h
  have entries : ∀ path node, (path, node) ∈ out.map (fun here => (here.location.text, here.node)) ↔
      ∃ l, l.text = path ∧ Reaches plan.tasks root l node := fun path node => by
    simp only [List.mem_map, Prod.mk.injEq]
    constructor
    · rintro ⟨⟨l, x⟩, hm, htext, rfl⟩
      exact ⟨l, htext, (mem_reach hout l x).mp hm⟩
    · rintro ⟨l, htext, hreach⟩
      exact ⟨⟨l, node⟩, (mem_reach hout l node).mpr hreach, htext, rfl⟩
  -- two nodes under one text would be at one location
  have consistent : SortedMap.Consistent
      (out.map fun here => (here.location.text, here.node)) := fun path a b ha hb => by
    obtain ⟨l, htext, hl⟩ := (entries path a).mp ha
    obtain ⟨l', htext', hl'⟩ := (entries path b).mp hb
    exact (hl.eq_of_text hl' (htext.trans htext'.symm)).2
  rw [SortedMap.get?_ofList consistent, entries]

end

end RecordCipher
