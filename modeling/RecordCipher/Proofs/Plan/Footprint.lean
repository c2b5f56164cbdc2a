import RecordCipher.Proofs.Plan.Agreement
import RecordCipher.Proofs.Tree.SameOutside

/-!
# What reading and writing depend on

Reading along a plan asks nodes for fields and for elements, level by level, until it fails. A
field that it never asks for may hold anything, or be absent: reading takes the same course, and
finds nodes at the same locations that are the same but for what is in that field. When reading
succeeds, the fields it has asked for are all that the tasks lead to. Writing follows the same
tasks and asks for no others, whatever replacements there are, so that it takes the same course,
too.

## Main definitions

* `Plan.touched`: the fields that reading along a plan asks for, until it fails
* `SameReached`: nodes reached at the same location that are the same outside a hidden one

## Main results

* `frontier_same`, `Plan.read_same`: reading does not depend on fields that it does not ask for
* `Plan.read_eq`: it finds the same, unless it finds what the field is in
* `Plan.mem_touched_iff`: what reading has asked for when it succeeds
* `Plan.write_same`: writing does not depend on what the tasks do not lead to
-/

namespace RecordCipher

/-! ## The fields that reading asks for -/

section Touched

variable {α : Type} [Tree α]

/-- The locations of the fields that a task asks a node for: one, whether it is there or not, or
none. -/
def Task.touches (here : Reached α) : Task → List Location
  | .field name => [here.location.field name]
  | .elements _ => []

/-- The locations of the fields that a task asks the nodes of a frontier for, until it fails. -/
def Task.touched (task : Task) : List (Reached α) → List Location
  | [] => []
  | here :: rest =>
    task.touches here ++
      match task.below here with
      | .error _ => []
      | .ok _ => task.touched rest

/-- The locations of the fields that tasks, one after another, ask the nodes reached from a
frontier for, until one fails. -/
def touched : List Task → List (Reached α) → List Location
  | [], _ => []
  | task :: rest, reached =>
    task.touched reached ++
      match advance task reached with
      | .error _ => []
      | .ok below => touched rest below

/-- The locations of the fields that reading along a plan asks for, until it fails. -/
def Plan.touched (plan : Plan) (root : α) : List Location :=
  RecordCipher.touched plan.tasks [⟨Location.root, root⟩]

/-- A task that does not fail asks every node. -/
theorem Task.mem_touched_iff {task : Task} {reached out : List (Reached α)}
    (h : advance task reached = .ok out) (l : Location) :
    l ∈ task.touched reached ↔ ∃ here ∈ reached, l ∈ task.touches here := by
  induction reached generalizing out with
  | nil => simp [touched]
  | cons here rest ih =>
    obtain ⟨below, hbelow, h⟩ := bind_eq_ok_iff.mp h
    obtain ⟨others, hothers, -⟩ := bind_eq_ok_iff.mp h
    rw [touched, hbelow, List.mem_append, List.exists_mem_cons_iff]
    exact or_congr_right (ih hothers)

/-- When no task fails, the fields that are asked for are those that tasks lead to: each belongs
to a node that the tasks before lead to. -/
theorem mem_touched_iff {tasks : List Task} {reached out : List (Reached α)}
    (h : frontier tasks reached = .ok out) (l : Location) (name : String) :
    l.field name ∈ touched tasks reached ↔ ∃ done rest, tasks = done ++ .field name :: rest ∧
      ∃ here ∈ reached, ∃ below node, l = here.location ++ below ∧
        Reaches done here.node below node := by
  -- Induction on the tasks: those after the first one start from the next level.
  induction tasks generalizing reached with
  | nil => simp [touched]
  | cons task tasks ih =>
    obtain ⟨level, hlevel, hout⟩ := bind_eq_ok_iff.mp h
    rw [touched, hlevel, List.mem_append, Task.mem_touched_iff hlevel]
    show _ ∨ l.field name ∈ touched tasks level ↔ _
    rw [ih hout]
    constructor
    · rintro (⟨here, hm, htouches⟩ | ⟨done, rest, rfl, r, hr, below, node, rfl, hreach⟩)
      · cases task with
        | field other =>
          obtain ⟨rfl, rfl⟩ : l = here.location ∧ name = other := by
            simpa [Task.touches, Location.field] using htouches
          exact ⟨[], tasks, rfl, here, hm, [], here.node, by simp, rfl, rfl⟩
        | elements selection => cases htouches
      · obtain ⟨here, hm, step, child, hsel, hchild, hnull, rfl⟩ := (mem_advance hlevel r).mp hr
        exact ⟨task :: done, rest, rfl, here, hm, step :: below, node, by simp, hsel, child, hchild,
          hnull, hreach⟩
    · rintro ⟨done, rest, htasks, here, hm, below, node, rfl, hreach⟩
      cases done with
      | nil =>
        obtain ⟨rfl, -⟩ := List.cons.inj htasks
        obtain ⟨rfl, rfl⟩ := hreach
        exact .inl ⟨here, hm, by simp [Task.touches]⟩
      | cons first done =>
        obtain ⟨rfl, rfl⟩ := List.cons.inj htasks
        cases below with
        | nil => exact hreach.elim
        | cons step below =>
          obtain ⟨hsel, child, hchild, hnull, hreach⟩ := hreach
          exact .inr ⟨done, rest, rfl, ⟨here.location ++ [step], child⟩,
            (mem_advance hlevel _).mpr ⟨here, hm, step, child, hsel, hchild, hnull, rfl⟩,
            below, node, by simp, hreach⟩

/-- When reading along a plan succeeds, the fields it has asked for are those that the tasks of
the plan lead to. -/
theorem Plan.mem_touched_iff {plan : Plan} {root : α} (hread : Readable plan.tasks root)
    (l : Location) (name : String) :
    l.field name ∈ plan.touched root ↔ ∃ done rest node,
      plan.tasks = done ++ .field name :: rest ∧ Reaches done root l node := by
  obtain ⟨out, hout⟩ := (reach_ok_iff plan.tasks root).mpr hread
  rw [touched, RecordCipher.mem_touched_iff hout]
  simp [Location.root]

end Touched

section Reached

variable {α : Type} [Tree α] [LawfulTree α]

/-- Tasks that lead along a location to a field lead to the node that the field belongs to. -/
theorem exists_reaches_of_along {tasks : List Task} {l : Location} {name : String} {root node : α}
    (halong : Along tasks (l.field name)) (hnode : nodeAt? l root = .ok (some node))
    (hnull : Tree.isNull node = false) :
    ∃ done rest, tasks = done ++ .field name :: rest ∧ Reaches done root l node := by
  induction l generalizing tasks root with
  | nil =>
    obtain rfl : root = node := by simpa using hnode
    cases tasks with
    | nil => exact halong.elim
    | cons task rest =>
      have hsel : task.selects (.field name) = true := halong.1
      cases task with
      | field other =>
        obtain rfl : name = other := by simpa [Task.selects] using hsel
        exact ⟨[], rest, rfl, rfl, rfl⟩
      | elements selection => cases hsel
  | cons step l ih =>
    cases tasks with
    | nil => exact halong.elim
    | cons task tasks =>
      rw [nodeAt?_cons] at hnode
      rcases hchild : Tree.child? root step with e | _ | child <;> simp only [hchild] at hnode
      · cases hnode
      · cases hnode
      · obtain ⟨done, rest, rfl, hreach⟩ := ih halong.2 hnode
        exact ⟨task :: done, rest, rfl, halong.1, child, hchild,
          isNull_of_nodeAt? hnode hnull, hreach⟩

end Reached

/-! ## Reading -/

section Reading

variable {α : Type} [Tree α] [LawfulTree α] {hidden here : Location}

/-- Nodes that are reached at the same location, which is not hidden, and are the same but for
what is hidden below them. -/
structure SameReached (hidden : Location) (r r' : Reached α) : Prop where
  location_eq : r.location = r'.location
  outside : ¬ hidden <+: r.location
  same : SameOutside hidden r.location r.node r'.node

theorem selectedElements_same (selection : Selection) {i : Nat} {xs ys : List α}
    (h : SameItems hidden here i xs ys)
    (hout : ∀ k, selection.selects k = true → ¬ hidden <+: here.index k) :
    SameCourse (List.Forall₂ (SameReached hidden)) (selectedElements here selection i xs)
      (selectedElements here selection i ys) := by
  induction h with
  | nil => exact .ok .nil
  | @cons i x y xs ys first _ ih =>
    rw [selectedElements, selectedElements]
    cases hsel : selection.selects i with
    | false => exact ih
    | true =>
      -- the selected item is not hidden, so that its head is the same
      have hhead := first.head_eq (hout i hsel)
      rw [LawfulTree.isNull_congr hhead, isArray_congr hhead]
      split
      · split
        · exact .error _
        · refine ih.bind fun others others' _ hothers => ?_
          exact .ok (.cons ⟨rfl, hout i hsel, first⟩ hothers)
      · exact ih

/-- A task selects below a node the same when it takes no step to what is hidden. -/
theorem Task.below_same {task : Task} {r r' : Reached α} (h : SameReached hidden r r')
    (hout : ∀ step, task.selects step = true → ¬ hidden <+: r.location ++ [step]) :
    SameCourse (List.Forall₂ (SameReached hidden)) (task.below r) (task.below r') := by
  obtain ⟨l, x⟩ := r
  obtain ⟨l', y⟩ := r'
  obtain ⟨rfl, outside, same⟩ := h
  cases task with
  | field name =>
    have hstep : ¬ hidden <+: l ++ [.field name] := hout (.field name) (by simp [selects])
    have hchild := same.child? hstep
    simp only [Tree.child?] at hchild
    simp only [below]
    rcases hx : Tree.field? x name with e | child <;>
      rcases hy : Tree.field? y name with e' | child' <;>
      rw [hx, hy] at hchild <;> cases hchild
    · exact .error _
    · next related =>
      cases related with
      | none => exact .ok .nil
      | some same' =>
        refine .ok ?_
        rw [LawfulTree.isNull_congr (same'.head_eq hstep)]
        split
        · exact .nil
        · exact .cons ⟨rfl, hstep, same'⟩ .nil
  | elements selection =>
    simp only [below]
    have helements := same.elements? outside
    cases hx : Tree.elements? x <;> cases hy : Tree.elements? y <;> rw [hx, hy] at helements <;>
      cases helements
    · simp only [LawfulTree.kind_congr (same.head_eq outside)]
      exact .error _
    · next hitems =>
      exact selectedElements_same selection hitems fun k hk =>
        hout (.index k) (by simpa [selects] using hk)

variable {parent : Location} {key : String}

omit [Tree α] [LawfulTree α] in
/-- A task that does not ask a node for a field takes no step there. -/
theorem Task.not_prefix_of_touches {task : Task} {r : Reached α}
    (houtside : ¬ parent.field key <+: r.location) (h : parent.field key ∉ task.touches r)
    (step : Location.Step) (hsel : task.selects step = true) :
    ¬ parent.field key <+: r.location ++ [step] := by
  intro hbefore
  rcases List.prefix_concat_iff.mp hbefore with heq | hbefore
  · cases task with
    | field name =>
      obtain rfl := (selects_field_iff name step).mp hsel
      exact h (by simpa [touches, Location.field] using heq)
    | elements selection =>
      obtain ⟨i, rfl, -⟩ := (selects_elements_iff selection step).mp hsel
      simp [Location.field] at heq
  · exact houtside hbefore

theorem advance_same {task : Task} {reached reached' : List (Reached α)}
    (h : List.Forall₂ (SameReached (parent.field key)) reached reached')
    (hfree : parent.field key ∉ task.touched reached) :
    SameCourse (List.Forall₂ (SameReached (parent.field key))) (advance task reached)
      (advance task reached') := by
  induction h with
  | nil => exact .ok .nil
  | @cons r r' rest rest' first _ ih =>
    rw [Task.touched, List.mem_append, not_or] at hfree
    have hbelow := Task.below_same first (Task.not_prefix_of_touches first.outside hfree.1)
    refine hbelow.bind fun below below' hok hbelow => ?_
    rw [hok] at hfree
    refine (ih hfree.2).bind fun others others' _ hothers => ?_
    exact .ok (List.rel_append hbelow hothers)

/-- From nodes that are the same but for a field that tasks do not ask for, the tasks reach nodes
that are. -/
theorem frontier_same {tasks : List Task} {reached reached' : List (Reached α)}
    (h : List.Forall₂ (SameReached (parent.field key)) reached reached')
    (hfree : parent.field key ∉ touched tasks reached) :
    SameCourse (List.Forall₂ (SameReached (parent.field key))) (frontier tasks reached)
      (frontier tasks reached') := by
  -- Induction on the tasks, for whatever nodes were reached before.
  induction tasks generalizing reached reached' with
  | nil => exact .ok h
  | cons task rest ih =>
    rw [touched, List.mem_append, not_or] at hfree
    refine (advance_same h hfree.1).bind fun level level' hok hlevel => ?_
    rw [hok] at hfree
    exact ih hlevel hfree.2

theorem reach_same {plan : Plan} {root root' : α}
    (h : SameOutside (parent.field key) Location.root root root')
    (hfree : parent.field key ∉ plan.touched root) :
    SameCourse (List.Forall₂ (SameReached (parent.field key))) (reach plan.tasks root)
      (reach plan.tasks root') := by
  refine frontier_same (.cons ⟨rfl, ?_, h⟩ .nil) hfree
  simp [Location.root, Location.field]

omit [LawfulTree α] in
/-- A location at or above a field and not at it is at or above the node that the field belongs
to. -/
theorem prefix_parent_of_field {l below : Location} (hout : ¬ parent.field key <+: l)
    (h : parent.field key <+: l ++ below) : l <+: parent := by
  rcases List.prefix_or_prefix_of_prefix h (List.prefix_append l below) with hbefore | hbefore
  · exact absurd hbefore hout
  · rcases List.prefix_concat_iff.mp hbefore with rfl | hbefore
    · exact absurd (List.prefix_refl _) hout
    · exact hbefore

/-- When nothing that reading finds is at or above the node that the field belongs to, reading
finds the same with anything else in the field. -/
theorem Plan.read_eq {plan : Plan} {root root' : α}
    (h : SameOutside (parent.field key) Location.root root root')
    (hfree : parent.field key ∉ plan.touched root)
    (hfound : ∀ reached, reach plan.tasks root = .ok reached → ∀ here ∈ reached,
      ¬ here.location <+: parent) : plan.read root = plan.read root' := by
  have equal : ∀ out out' : List (Reached α),
      List.Forall₂ (SameReached (parent.field key)) out out' →
        (∀ here ∈ out, ¬ here.location <+: parent) → out = out' := by
    intro out out' hout hfound
    induction hout with
    | nil => rfl
    | @cons r r' rest rest' first _ ih =>
      obtain ⟨hr, hrest⟩ := List.forall_mem_cons.mp hfound
      have hnode : r.node = r'.node := first.same.eq fun l hl =>
        hr (prefix_parent_of_field first.outside hl)
      obtain ⟨l, x⟩ := r
      obtain ⟨l', y⟩ := r'
      obtain ⟨rfl, -, -⟩ := first
      obtain rfl : x = y := hnode
      rw [ih hrest]
  have hreach : reach plan.tasks root = reach plan.tasks root' :=
    ((reach_same h hfree).mono fun out out' hout _ hsame =>
      equal out out' hsame (hfound out hout)).eq
  rw [read, read, hreach]

/-- Reading does not depend on a field that it does not ask for: it fails as it does with anything
else there, or finds nodes with the same heads at the same locations. -/
theorem Plan.read_same {plan : Plan} {root root' : α}
    (h : SameOutside (parent.field key) Location.root root root')
    (hfree : parent.field key ∉ plan.touched root) :
    SameCourse (fun values values' => values.mapValues head = values'.mapValues head)
      (plan.read root) (plan.read root') := by
  refine (reach_same h hfree).map fun out out' _ _ hout => ?_
  rw [← SortedMap.ofList_map, ← SortedMap.ofList_map, List.map_map, List.map_map]
  congr 1
  rw [← List.forall₂_eq_eq_eq, List.forall₂_map_left_iff, List.forall₂_map_right_iff]
  refine hout.imp fun r r' hr => ?_
  simp only [Function.comp_apply, hr.location_eq, hr.same.head_eq hr.outside]

end Reading

/-! ## Rewriting -/

section Rewriting

variable {α : Type} [Tree α] [LawfulTree α] {hidden here : Location}
  {rewrite : Location → α → Except ResolutionError α}

theorem rewriteItems_same {selection : Selection} {i : Nat} {xs ys : List α}
    (h : SameItems hidden here i xs ys)
    (hout : ∀ k, selection.selects k = true → ¬ hidden <+: here.index k)
    (hrewrite : ∀ k x y, selection.selects k = true → SameOutside hidden (here.index k) x y →
      SameCourse (SameOutside hidden (here.index k)) (rewrite (here.index k) x)
        (rewrite (here.index k) y)) :
    SameCourse (SameItems hidden here i) (rewriteItems rewrite here selection i xs)
      (rewriteItems rewrite here selection i ys) := by
  induction h with
  | nil i => exact .ok (.nil i)
  | @cons i x y xs ys first _ ih =>
    rw [rewriteItems, rewriteItems]
    cases hsel : selection.selects i with
    | false => exact ih.map fun _ _ _ _ hothers => .cons first hothers
    | true =>
      rw [LawfulTree.isNull_congr (first.head_eq (hout i hsel))]
      split
      · refine (hrewrite i x y hsel first).bind fun x' y' _ hitem => ?_
        exact ih.bind fun _ _ _ hothers => .ok (.cons hitem hothers)
      · exact ih.map fun _ _ _ _ hothers => .cons first hothers

/-- Rewriting what tasks lead to takes the same course when none of them leads to what is hidden,
and rewriting each node does. -/
theorem rewriteReached_same {tasks : List Task} {x y : α} (h : SameOutside hidden here x y)
    (hout : ∀ l, Along tasks l → ¬ hidden <+: here ++ l)
    (hrewrite : ∀ l x y, Along tasks l → l.length = tasks.length →
      SameOutside hidden (here ++ l) x y →
        SameCourse (SameOutside hidden (here ++ l)) (rewrite (here ++ l) x)
          (rewrite (here ++ l) y)) :
    SameCourse (SameOutside hidden here) (rewriteReached rewrite tasks here x)
      (rewriteReached rewrite tasks here y) := by
  -- Induction on the tasks; what is hidden for the others is hidden from one step below.
  induction tasks generalizing here x y with
  | nil => simpa [rewriteReached] using hrewrite [] x y trivial rfl (by simpa using h)
  | cons task rest ih =>
    have hstep : ∀ step, task.selects step = true → ¬ hidden <+: here ++ [step] := by
      intro step hsel
      exact hout [step] ⟨hsel, by cases rest <;> trivial⟩
    have below : ∀ step x y, task.selects step = true → SameOutside hidden (here ++ [step]) x y →
        SameCourse (SameOutside hidden (here ++ [step]))
          (rewriteReached rewrite rest (here ++ [step]) x)
          (rewriteReached rewrite rest (here ++ [step]) y) := by
      intro step x y hsel hxy
      apply ih hxy
      · intro l hl
        simpa using hout (step :: l) ⟨hsel, hl⟩
      · intro l x y hl hlength hxy
        simpa using hrewrite (step :: l) x y ⟨hsel, hl⟩ (by simpa using hlength)
          (by simpa using hxy)
    cases task with
    | field name =>
      have hsel : (Task.field name).selects (.field name) = true := by simp [Task.selects]
      have hfocus := h.focusField? (hstep _ hsel)
      rw [rewriteReached, rewriteReached]
      rcases hx : Tree.focusField? x name with e | focus <;>
        rcases hy : Tree.focusField? y name with e' | focus' <;> rw [hx, hy] at hfocus <;>
        cases hfocus
      · exact .ok h
      · next related =>
        cases related with
        | none => exact .ok h
        | @some f f' same =>
          have hhead := same.head_eq (hstep _ hsel)
          simp only [LawfulTree.isNull_congr hhead]
          split
          · exact .ok h
          · exact (below _ _ _ hsel same).map fun _ _ _ _ hchild => h.putField hx hy hchild
    | elements selection =>
      have hhere : ¬ hidden <+: here := by simpa using hout [] trivial
      have helements := h.elements? hhere
      simp only [LawfulTree.elements?_eq] at helements
      rw [rewriteReached, rewriteReached]
      rcases hx : Tree.focusElements? x with _ | f <;> rcases hy : Tree.focusElements? y with _ | f'
        <;> simp only [hx, hy, Option.map] at helements <;> cases helements
      · exact .ok h
      · next hitems =>
        have hsel : ∀ k, selection.selects k = true →
            (Task.elements selection).selects (.index k) = true := fun k hk => hk
        have hitems := rewriteItems_same hitems (fun k hk => hstep _ (hsel k hk))
          fun k x y hk => below (.index k) x y (hsel k hk)
        refine hitems.map fun xs ys hxs hys hsame => ?_
        exact h.putElements hx hy (rewriteItems_length hxs) (rewriteItems_length hys) hsame

end Rewriting

/-! ## Writing documents -/

section Writing

variable {hidden here : Location} {replacements : Replacements Json} {x y : Json}

namespace Json

/-- Whether something can be set one step below a document is decided by its head. -/
theorem verdict_setChild_congr (h : head x = head y) (step : Location.Step) (value : Json) :
    verdict (Tree.setChild x step value).ofCopy = verdict (Tree.setChild y step value).ofCopy := by
  cases step with
  | field name => cases x <;> cases y <;> first | rfl | cases h
  | index i =>
    cases x <;> cases y <;> first | rfl | cases h | skip
    next items items' =>
      have hlength : items.length = items'.length := Head.array.inj h
      simp only [Tree.setChild, Tree.setElement, setElement, overwrite_eq, hlength]
      split <;> rfl

theorem setChild_same (h : SameOutside hidden here x y) (hout : ¬ hidden <+: here)
    (step : Location.Step) {value : Json} (hv : Sound value) :
    SameCourse (SameOutside hidden here) (Tree.setChild x step value).ofCopy
      (Tree.setChild y step value).ofCopy := by
  refine .of_verdict (verdict_setChild_congr (h.head_eq hout) step value) fun x' y' hx hy => ?_
  rw [Outcome.ofCopy_eq_ok_iff] at hx hy
  exact h.replaced (LawfulTree.replaced_setChild h.sound_left hx)
    (LawfulTree.replaced_setChild h.sound_right hy) (LawfulTree.sound_setChild h.sound_left hv hx)
    (LawfulTree.sound_setChild h.sound_right hv hy) (.refl _ _ hv)

end Json

theorem setReplacedField_same (hR : replacements.AllSound) (h : SameOutside hidden here x y)
    (hout : ¬ hidden <+: here) (name : String) :
    SameCourse (SameOutside hidden here) (setReplacedField replacements here name x)
      (setReplacedField replacements here name y) := by
  unfold setReplacedField
  cases hget : replacements.get? (here.field name).text with
  | none => exact .ok h
  | some value =>
    have hset := Json.setChild_same h hout (.field name) (hR _ _ hget)
    simp only [Tree.setChild] at hset ⊢
    rcases hx : (Tree.setField x name value).ofCopy with e | x' <;>
      rcases hy : (Tree.setField y name value).ofCopy with e' | y' <;> rw [hx, hy] at hset <;>
      cases hset
    · cases e <;> exact .error _
    · next same => exact .ok same

theorem setReplacedElements_same (hR : replacements.AllSound) (h : SameOutside hidden here x y)
    (hout : ¬ hidden <+: here) (positions : List Nat) :
    SameCourse (SameOutside hidden here) (setReplacedElements replacements here positions x)
      (setReplacedElements replacements here positions y) := by
  -- Induction on the positions, for the nodes that the ones before have made.
  induction positions generalizing x y with
  | nil => exact .ok h
  | cons i rest ih =>
    rw [setReplacedElements, setReplacedElements]
    cases hget : replacements.get? (here.index i).text with
    | none => exact ih h
    | some value =>
      have hset := Json.setChild_same h hout (.index i) (hR _ _ hget)
      simp only [Tree.setChild] at hset ⊢
      rcases hx : (Tree.setElement x i value).ofCopy with e | x' <;>
        rcases hy : (Tree.setElement y i value).ofCopy with e' | y' <;> rw [hx, hy] at hset <;>
        cases hset
      · exact .error _
      · next same => exact ih same

/-- At a node a task writes the same when it takes no step to what is hidden. -/
theorem Task.write_same (hR : replacements.AllSound) (h : SameOutside hidden here x y)
    (hhere : ¬ hidden <+: here) {task : Task}
    (hout : ∀ step, task.selects step = true → ¬ hidden <+: here ++ [step]) :
    SameCourse (SameOutside hidden here) (task.write replacements here x)
      (task.write replacements here y) := by
  cases task with
  | field name =>
    refine (setReplacedField_same hR h hhere name).bind fun x' y' _ hwritten => ?_
    have hfocus := hwritten.focusField? (hout (.field name) (by simp [selects]))
    rcases hx : Tree.focusField? x' name with e | f <;>
      rcases hy : Tree.focusField? y' name with e' | f' <;> rw [hx, hy] at hfocus <;>
      cases hfocus
    · exact .error _
    · exact .ok hwritten
  | elements selection =>
    rw [write, write, LawfulTree.kind_congr (h.head_eq hhere)]
    have helements := h.elements? hhere
    rcases hx : Tree.elements? x with _ | items <;> rcases hy : Tree.elements? y with _ | items' <;>
      rw [hx, hy] at helements <;> cases helements
    · exact .error _
    · next hitems =>
      simp only [hitems.length_eq]
      refine (setReplacedElements_same hR h hhere _).bind fun x' y' _ hwritten => ?_
      have helements' := hwritten.elements? hhere
      simp only [LawfulTree.elements?_eq] at helements'
      rcases hx' : Tree.focusElements? x' with _ | f <;>
        rcases hy' : Tree.focusElements? y' with _ | f' <;>
        simp only [hx', hy', Option.map] at helements' <;> cases helements'
      · exact .error _
      · next hitems' =>
        have hchecked := (selectedElements_same selection hitems'
          fun k hk => hout (.index k) (by simpa [selects] using hk)).verdict_eq
        simp only [checkNoArray_eq_verdict, hchecked]
        cases verdict (selectedElements here selection 0 f'.part) with
        | error e => exact .error e
        | ok => exact .ok hwritten

theorem writeLevels_same (hR : replacements.AllSound) {done tasks : List Task}
    (h : SameOutside hidden Location.root x y) (hout : ¬ Along (done ++ tasks) hidden) :
    SameCourse (SameOutside hidden Location.root) (writeLevels replacements done tasks x)
      (writeLevels replacements done tasks y) := by
  -- Induction on the tasks that are left, over what those before have written.
  induction tasks generalizing done x y with
  | nil => exact .ok h
  | cons task rest ih =>
    have hlevel : ∀ l, Along (done ++ [task]) l → ¬ hidden <+: l := by
      rintro l hl ⟨below, rfl⟩
      apply hout
      have hl := (hl.of_append).append_right rest
      simpa using hl
    refine SameCourse.bind (rewriteReached_same h ?_ ?_) fun x' y' _ hwritten => ?_
    · intro l hl
      exact hlevel l (hl.append_right [task])
    · intro l x y hl hlength hxy
      apply Task.write_same hR hxy (hlevel l (hl.append_right [task]))
      intro step hsel
      exact hlevel (l ++ [step]) (hl.append hlength ⟨hsel, trivial⟩)
    · exact ih hwritten (by simpa using hout)

/-- Writing does not depend on what the tasks of the plan do not lead to: it fails as it does with
anything else there, or makes documents that are the same everywhere else. -/
theorem Plan.write_same {plan : Plan} (hR : replacements.AllSound)
    (h : SameOutside hidden Location.root x y) (hout : ¬ Along plan.tasks hidden) :
    SameCourse (SameOutside hidden Location.root) (plan.write x replacements)
      (plan.write y replacements) := by
  unfold write
  split
  · exact .ok h
  · split
    · cases hget : replacements.get? Location.root.text with
      | none => exact .ok h
      | some value => exact .ok (.refl _ _ (hR _ _ hget))
    · exact writeLevels_same hR h hout

end Writing

end RecordCipher
