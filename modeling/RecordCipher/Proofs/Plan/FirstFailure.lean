import Mathlib.Data.List.Induction
import RecordCipher.Proofs.Plan.Agreement
import RecordCipher.Proofs.Plan.Failures

/-!
# The first failure of reading

Reading goes down level by level and stops at the first node that does not fit the next task. What
it reports can be said without going down: every node that some of the tasks lead to, and that
does not fit the task behind them, is an offence, and so is a selected element that is itself an
array. Among all offences in a record, those after fewer tasks come first, and after as many tasks
those at smaller positions do. A level lists its nodes in the order of their positions, which is
what makes the first failure of a level the first offence in this order.

## Main definitions

* `Location.PartsBefore`: two locations part at an array
* `wildcardPositions`: the positions of a location at the wildcards of tasks
* `Task.Offends`: what is wrong with a node for a task, where, and how it is reported
* `Plan.HasOffence`, `Plan.FirstOffence`: the offences of a record, and the first of them

## Main results

* `pairwise_reach`: a level lists its nodes in the order of their positions
* `exists_of_reach_eq_error`: reading fails at a level, after the levels before
* `Task.exists_of_below_eq_error`: a task fails at a node with the first thing wrong with it
* `Plan.read_eq_first_offence`: reading fails with the first offence of the record, in both flavors
-/

namespace RecordCipher

/-! ## The order of locations -/

/-- Two locations part at an array, and the first of them goes on with an element before that of
the second. -/
def Location.PartsBefore (l l' : Location) : Prop :=
  ∃ front i j back back', l = front ++ .index i :: back ∧ l' = front ++ .index j :: back' ∧ i < j

theorem Location.PartsBefore.append {l l' : Location} (h : l.PartsBefore l')
    (below below' : Location) : Location.PartsBefore (l ++ below) (l' ++ below') := by
  obtain ⟨front, i, j, back, back', rfl, rfl, hlt⟩ := h
  exact ⟨front, i, j, back ++ below, back' ++ below', by simp, by simp, hlt⟩

theorem Location.partsBefore_index {l : Location} {i j : Nat} (h : i < j) :
    (l.index i).PartsBefore (l.index j) :=
  ⟨l, i, j, [], [], rfl, rfl, h⟩

/-- The positions of a location at the wildcards of the tasks that it follows. -/
def wildcardPositions : List Task → Location → List Nat
  | .elements .every :: tasks, .index i :: below => i :: wildcardPositions tasks below
  | _ :: tasks, _ :: below => wildcardPositions tasks below
  | _, _ => []

/-- Locations along the same tasks can only part at a wildcard. -/
theorem wildcardPositions_lt {tasks : List Task} {l l' : Location} (h : l.PartsBefore l')
    (hl : Along tasks l) (hl' : Along tasks l') :
    wildcardPositions tasks l < wildcardPositions tasks l' := by
  obtain ⟨front, i, j, back, back', rfl, rfl, hlt⟩ := h
  induction front generalizing tasks with
  | nil =>
    rcases tasks with _ | ⟨_ | k | _, tasks⟩
    · exact hl.elim
    · exact absurd hl.1 (by simp [Task.selects])
    · -- one position is not two
      have hi : k = i := by simpa [Task.selects, Selection.selects] using hl.1
      have hj : k = j := by simpa [Task.selects, Selection.selects] using hl'.1
      omega
    · exact List.cons_lt_cons_iff.mpr (.inl hlt)
  | cons step front ih =>
    rcases tasks with _ | ⟨_ | _ | _, tasks⟩
    · exact hl.elim
    · exact ih hl.2 hl'.2
    · exact ih hl.2 hl'.2
    · cases step with
      | field name => exact absurd hl.1 (by simp [Task.selects])
      | index k => exact List.cons_lt_cons_iff.mpr (.inr ⟨rfl, ih hl.2 hl'.2⟩)

/-! ## The order of a level -/

section Levels

variable {α : Type} [Tree α]

/-- Selecting elements lists them in the order of their positions. -/
theorem pairwise_selectedElements {here : Location} {selection : Selection} {i : Nat}
    {items : List α} {out : List (Reached α)}
    (h : selectedElements here selection i items = .ok out) :
    out.Pairwise fun r r' => r.location.PartsBefore r'.location := by
  induction items generalizing i out with
  | nil =>
    obtain rfl : [] = out := by simpa [selectedElements] using h
    exact .nil
  | cons item rest ih =>
    rw [selectedElements] at h
    split at h
    · split at h
      · cases h
      · obtain ⟨others, hothers, hout⟩ := bind_eq_ok_iff.mp h
        obtain rfl : _ = out := by simpa [pure, Except.pure] using hout
        refine List.pairwise_cons.mpr ⟨fun r hr => ?_, ih hothers⟩
        obtain ⟨k, x, -, -, -, rfl⟩ := (mem_selectedElements hothers r).mp hr
        exact Location.partsBefore_index (by omega)
    · exact ih h

theorem Task.pairwise_below {task : Task} {here : Reached α} {out : List (Reached α)}
    (h : task.below here = .ok out) :
    out.Pairwise fun r r' => r.location.PartsBefore r'.location := by
  cases task with
  | field name =>
    simp only [below] at h
    split at h
    · cases h
    · obtain rfl := Except.ok.inj h
      exact .nil
    · obtain rfl := Except.ok.inj h
      split
      · exact .nil
      · exact List.pairwise_singleton _ _
  | elements selection =>
    simp only [below] at h
    split at h
    · cases h
    · exact pairwise_selectedElements h

/-- Nodes are below others in the order of the others. -/
theorem pairwise_advance {task : Task} {reached out : List (Reached α)}
    (hreached : reached.Pairwise fun r r' => r.location.PartsBefore r'.location)
    (h : advance task reached = .ok out) :
    out.Pairwise fun r r' => r.location.PartsBefore r'.location := by
  induction reached generalizing out with
  | nil =>
    obtain rfl : [] = out := by simpa [advance] using h
    exact .nil
  | cons here rest ih =>
    obtain ⟨hhere, hrest⟩ := List.pairwise_cons.mp hreached
    simp only [advance, bind_eq_ok_iff, pure, Except.pure] at h
    obtain ⟨below, hbelow, others, hothers, hout⟩ := h
    obtain rfl : below ++ others = out := by simpa using hout
    refine List.pairwise_append.mpr ⟨Task.pairwise_below hbelow, ih hrest hothers, ?_⟩
    intro r hr r' hr'
    obtain ⟨step, child, -, -, -, rfl⟩ := (Task.mem_below hbelow r).mp hr
    obtain ⟨there, hthere, step', child', -, -, -, rfl⟩ := (mem_advance hothers r').mp hr'
    exact (hhere there hthere).append [step] [step']

/-- A level lists its nodes in the order of their positions. -/
theorem pairwise_reach {tasks : List Task} {root : α} {out : List (Reached α)}
    (h : reach tasks root = .ok out) :
    out.Pairwise fun r r' => r.location.PartsBefore r'.location := by
  -- Induction on the tasks, the last one first: it goes down from the level of the others.
  induction tasks using List.reverseRecOn generalizing out with
  | nil =>
    obtain rfl : [⟨Location.root, root⟩] = out := by simpa [reach, frontier] using h
    exact List.pairwise_singleton _ _
  | append_singleton tasks task ih =>
    rw [reach_concat] at h
    obtain ⟨level, hlevel, hout⟩ := bind_eq_ok_iff.mp h
    exact pairwise_advance (ih hlevel) hout

/-! ## Where reading fails -/

/-- Reading fails at the level of one task, after the levels of those before. -/
theorem exists_of_reach_eq_error {tasks : List Task} {root : α} {e : ResolutionError}
    (h : reach tasks root = .error e) : ∃ done task rest level, tasks = done ++ task :: rest ∧
      reach done root = .ok level ∧ advance task level = .error e := by
  induction tasks using List.reverseRecOn with
  | nil => cases h
  | append_singleton tasks last ih =>
    rw [reach_concat] at h
    rcases bind_eq_error_iff.mp h with hbefore | ⟨level, hlevel, hfails⟩
    · obtain ⟨done, task, rest, level, rfl, hlevel, hfails⟩ := ih hbefore
      exact ⟨done, task, rest ++ [last], level, by simp, hlevel, hfails⟩
    · exact ⟨tasks, last, [], level, rfl, hlevel, hfails⟩

/-- A level fails at the first node at which the task fails. -/
theorem exists_of_advance_eq_error {task : Task} {reached : List (Reached α)}
    {e : ResolutionError} (h : advance task reached = .error e) : ∃ front here back,
      reached = front ++ here :: back ∧ (∀ r ∈ front, task.Fits r.node) ∧
        task.below here = .error e := by
  induction reached with
  | nil => cases h
  | cons first rest ih =>
    rw [advance] at h
    rcases bind_eq_error_iff.mp h with hfirst | ⟨below, hbelow, h⟩
    · exact ⟨[], first, rest, rfl, by simp, hfirst⟩
    · rcases bind_eq_error_iff.mp h with hrest | ⟨others, -, h⟩
      · obtain ⟨front, here, back, rfl, hfits, hfails⟩ := ih hrest
        have hfirst : task.Fits first.node := (Task.below_ok_iff task first).mp ⟨below, hbelow⟩
        exact ⟨first :: front, here, back, rfl, List.forall_mem_cons.mpr ⟨hfirst, hfits⟩, hfails⟩
      · cases h

end Levels

/-! ## What is wrong with a node -/

section Offences

variable {α : Type} [Tree α]

/-- What is wrong with a node for a task: the place that is named, and what is reported. -/
inductive Task.Offends (here : Location) (node : α) : Task → Location → ResolutionError → Prop where
  /-- The node has no fields. -/
  | noFields {name : String}
    (refused : Tree.field? node name = .error (.notAnObject (Tree.kind node))) :
    Offends here node (.field name) here (.shapeMismatch here.text .object (Tree.kind node))
  /-- The node does not declare the field. -/
  | undeclared {name : String} {declared : List String}
    (refused : Tree.field? node name = .error (.undeclaredField name declared)) :
    Offends here node (.field name) here (.undeclaredField here.text name declared)
  /-- The node has no elements. -/
  | noElements {selection : Selection} (refused : Tree.isArray node = false) :
    Offends here node (.elements selection) here
      (.shapeMismatch here.text .array (Tree.kind node))
  /-- An element that is selected is itself an array. -/
  | nested {selection : Selection} {i : Nat} {item : α} (selected : selection.selects i = true)
    (element : Tree.element? node i = some item) (isArray : Tree.isArray item = true) :
    Offends here node (.elements selection) (here.index i) (.nestedArray (here.index i).text)

variable [LawfulTree α]

theorem isNull_of_isArray {node : α} (h : Tree.isArray node = true) :
    Tree.isNull node = false := by
  by_contra hnull
  rw [Bool.not_eq_false] at hnull
  simp [Tree.isArray, LawfulTree.elements?_of_isNull hnull] at h

/-- Nothing is wrong with a node that fits. -/
theorem Task.Offends.not_fits {task : Task} {here l : Location} {node : α} {e : ResolutionError}
    (h : task.Offends here node l e) : ¬ task.Fits node := by
  cases h with
  | noFields refused | undeclared refused =>
    rintro ⟨child, hchild⟩
    cases refused.symm.trans hchild
  | noElements refused =>
    rintro ⟨items, hitems, -⟩
    simp [Tree.isArray, hitems] at refused
  | @nested selection i item selected element isArray =>
    rintro ⟨items, hitems, hflat⟩
    have hget : items[i]? = some item := by simpa [Tree.element?, hitems] using element
    rw [hflat i item hget selected (isNull_of_isArray isArray)] at isArray
    cases isArray

omit [LawfulTree α] in
/-- What is named is the node, or an element that the task selects. -/
theorem Task.Offends.exists_below {task : Task} {here l : Location} {node : α}
    {e : ResolutionError} (h : task.Offends here node l e) :
    ∃ below, l = here ++ below ∧ Along [task] below := by
  cases h with
  | noFields | undeclared | noElements => exact ⟨[], (List.append_nil here).symm, trivial⟩
  | nested selected => exact ⟨[.index _], rfl, selected, trivial⟩

/-- Selecting elements fails with the first selected one that is itself an array. -/
theorem exists_of_selectedElements_eq_error {here : Location} {selection : Selection} {i : Nat}
    {items : List α} {e : ResolutionError}
    (h : selectedElements here selection i items = .error e) :
    ∃ k item, items[k]? = some item ∧ selection.selects (i + k) = true ∧
      Tree.isArray item = true ∧ e = .nestedArray (here.index (i + k)).text ∧
      ∀ k' item', items[k']? = some item' → selection.selects (i + k') = true →
        Tree.isArray item' = true → k ≤ k' := by
  induction items generalizing i with
  | nil => cases h
  | cons item rest ih =>
    rw [selectedElements] at h
    by_cases hfirst : selection.selects i = true ∧ Tree.isArray item = true
    · obtain ⟨hsel, harray⟩ := hfirst
      simp only [hsel, isNull_of_isArray harray, harray, Bool.not_false, Bool.and_self,
        if_true] at h
      obtain rfl := Except.error.inj h
      exact ⟨0, item, rfl, hsel, harray, rfl, fun _ _ _ _ _ => Nat.zero_le _⟩
    · -- the first one is in order, so that one of the rest is not
      have hrest : selectedElements here selection (i + 1) rest = .error e := by
        split at h
        · next hc =>
          have hsel : selection.selects i = true := (Bool.and_eq_true_iff.mp hc).1
          rw [if_neg fun harray => hfirst ⟨hsel, harray⟩] at h
          exact map_eq_error_iff.mp (by rwa [← map_eq_pure_bind] at h)
        · exact h
      obtain ⟨k, x, hget, hsel, harray, rfl, hleast⟩ := ih hrest
      have shift : ∀ k, i + 1 + k = i + (k + 1) := by omega
      rw [shift] at hsel
      refine ⟨k + 1, x, by simpa using hget, hsel, harray, by rw [shift], ?_⟩
      rintro (_ | k') x' hget' hsel' harray'
      · obtain rfl : item = x' := by simpa using hget'
        exact absurd ⟨hsel', harray'⟩ hfirst
      · rw [← shift] at hsel'
        exact Nat.succ_le_succ (hleast k' x' (by simpa using hget') hsel' harray')

omit [LawfulTree α] in
/-- There is one thing wrong with a node for a field at most. -/
theorem Task.Offends.field_unique {here l l' : Location} {node : α} {name : String}
    {e e' : ResolutionError} (h : (Task.field name).Offends here node l e)
    (h' : (Task.field name).Offends here node l' e') : l' = l ∧ e' = e := by
  rcases h with refused | refused <;> rcases h' with refused' | refused' <;>
    cases refused.symm.trans refused' <;> exact ⟨rfl, rfl⟩

omit [LawfulTree α] in
/-- A task for a field fails with what is wrong with the node. -/
theorem Task.offends_of_below_field [AccountableTree α] {name : String} {here : Reached α}
    {e : ResolutionError} (h : (Task.field name).below here = .error e) :
    (Task.field name).Offends here.location here.node here.location e := by
  simp only [below] at h
  split at h
  · next refusal hrefused =>
    obtain rfl := Except.error.inj h
    rcases AccountableTree.field?_error hrefused with rfl | ⟨declared, rfl⟩
    · exact .noFields hrefused
    · exact .undeclared hrefused
  · cases h
  · cases h

/-- A task for elements fails for lack of elements, or with the first selected one that is itself
an array. -/
theorem Task.exists_of_below_elements {selection : Selection} {here : Reached α}
    {e : ResolutionError} (h : (Task.elements selection).below here = .error e) :
    ∃ l, (Task.elements selection).Offends here.location here.node l e ∧
      ∀ l' e', (Task.elements selection).Offends here.location here.node l' e' →
        l' = l ∧ e' = e ∨ l.PartsBefore l' := by
  simp only [below] at h
  split at h
  · next helems =>
    obtain rfl := Except.error.inj h
    have hflat : Tree.isArray here.node = false := by simp [Tree.isArray, helems]
    refine ⟨here.location, .noElements hflat, ?_⟩
    rintro l' e' (_ | _ | _ | ⟨selected, element, -⟩)
    · exact .inl ⟨rfl, rfl⟩
    · simp [Tree.element?, helems] at element
  · next items helems =>
    obtain ⟨k, item, hget, hsel, harray, rfl, hleast⟩ := exists_of_selectedElements_eq_error h
    rw [Nat.zero_add] at hsel ⊢
    have helement : Tree.element? here.node k = some item := by simp [Tree.element?, helems, hget]
    refine ⟨here.location.index k, .nested hsel helement harray, ?_⟩
    rintro l' e' (_ | _ | refused | @⟨_, k', item', selected, element, isArray⟩)
    · simp [Tree.isArray, helems] at refused
    · have hget' : items[k']? = some item' := by simpa [Tree.element?, helems] using element
      have hle := hleast k' item' hget' (by rwa [Nat.zero_add]) isArray
      rcases Nat.lt_or_eq_of_le hle with hlt | rfl
      · exact .inr (Location.partsBefore_index hlt)
      · exact .inl ⟨rfl, rfl⟩

/-- A task fails at a node with the first thing that is wrong with it. -/
theorem Task.exists_of_below_eq_error [AccountableTree α] {task : Task} {here : Reached α}
    {e : ResolutionError} (h : task.below here = .error e) :
    ∃ l, task.Offends here.location here.node l e ∧
      ∀ l' e', task.Offends here.location here.node l' e' →
        l' = l ∧ e' = e ∨ l.PartsBefore l' := by
  cases task with
  | field name =>
    have hoffends := offends_of_below_field h
    exact ⟨here.location, hoffends, fun l' e' hoffends' => .inl (hoffends.field_unique hoffends')⟩
  | elements selection => exact exists_of_below_elements h

end Offences

/-! ## Offences of a record -/

/-- Something that reading can fail with: after how many tasks, at which place, and what is
reported. -/
structure Offence where
  /-- The number of completed tasks. -/
  depth : Nat
  /-- The place that is named. -/
  location : Location
  /-- What is reported. -/
  error : ResolutionError

namespace Plan

section

variable {α : Type} [Tree α]

/-- Some tasks of a plan lead to a node for which there is something wrong with it for the task
behind them. -/
def HasOffence (plan : Plan) (root : α) (o : Offence) : Prop :=
  ∃ task l node, plan.tasks[o.depth]? = some task ∧
    Reaches (plan.tasks.take o.depth) root l node ∧ task.Offends l node o.location o.error

/-- An offence comes before another one after fewer tasks, or after as many at smaller positions:
the positions at the wildcards of the plan are compared from the root downwards. -/
def Precedes (plan : Plan) (o o' : Offence) : Prop :=
  o.depth < o'.depth ∨ o.depth = o'.depth ∧
    wildcardPositions plan.tasks o.location < wildcardPositions plan.tasks o'.location

/-- The offence of a record that comes before all others. -/
def FirstOffence (plan : Plan) (root : α) (o : Offence) : Prop :=
  plan.HasOffence root o ∧ ∀ o', plan.HasOffence root o' → o' = o ∨ plan.Precedes o o'

theorem Precedes.asymm {plan : Plan} {o o' : Offence} (h : plan.Precedes o o') :
    ¬ plan.Precedes o' o := by
  rintro (hdepth' | ⟨hdepth', hlt'⟩) <;> rcases h with hdepth | ⟨hdepth, hlt⟩
  · omega
  · omega
  · omega
  · exact List.lt_asymm hlt hlt'

theorem FirstOffence.unique {plan : Plan} {root : α} {o o' : Offence}
    (h : plan.FirstOffence root o) (h' : plan.FirstOffence root o') : o = o' := by
  rcases h.2 o' h'.1 with heq | hlt
  · exact heq.symm
  · exact (h'.2 o h.1).resolve_right hlt.asymm

/-- What is named is along the plan. -/
theorem HasOffence.along {plan : Plan} {root : α} {o : Offence} (h : plan.HasOffence root o) :
    Along plan.tasks o.location := by
  obtain ⟨task, l, node, htask, hreach, hoffends⟩ := h
  obtain ⟨hdepth, hget⟩ := List.getElem?_eq_some_iff.mp htask
  obtain ⟨below, hlocation, hbelow⟩ := hoffends.exists_below
  have htasks : plan.tasks =
      plan.tasks.take o.depth ++ ([task] ++ plan.tasks.drop (o.depth + 1)) := by
    rw [List.singleton_append, ← hget, ← List.drop_eq_getElem_cons hdepth, List.take_append_drop]
  rw [htasks, hlocation]
  exact hreach.along.append hreach.length_eq (hbelow.append_right _)

end

variable {α : Type} [Tree α] [LawfulTree α]

omit [LawfulTree α] in
/-- What has been followed could be followed at every node on the way. -/
theorem fits_of_reach {tasks : List Task} {root node : α} {out : List (Reached α)}
    (h : reach tasks root = .ok out) {k : Nat} {task : Task} (htask : tasks[k]? = some task)
    {l : Location} (hreach : Reaches (tasks.take k) root l node) : task.Fits node := by
  obtain ⟨hk, hget⟩ := List.getElem?_eq_some_iff.mp htask
  rw [← List.take_append_drop k tasks, List.drop_eq_getElem_cons hk, hget, reach,
    frontier_append_tasks] at h
  obtain ⟨level, hlevel, h⟩ := bind_eq_ok_iff.mp h
  obtain ⟨below, hbelow, -⟩ := bind_eq_ok_iff.mp h
  exact (advance_ok_iff task level).mp ⟨below, hbelow⟩ ⟨l, node⟩
    ((mem_reach hlevel l node).mpr hreach)

/-- A record that can be read has no offences. -/
theorem not_hasOffence_of_read {plan : Plan} {root : α} {values : PathMap α}
    (h : plan.read root = .ok values) (o : Offence) : ¬ plan.HasOffence root o := by
  rintro ⟨task, l, node, htask, hreach, hoffends⟩
  obtain ⟨out, hout, -⟩ := map_eq_ok_iff.mp h
  exact hoffends.not_fits (fits_of_reach hout htask hreach)

/-- A level fails with what is wrong at the smallest positions. -/
theorem exists_first_of_advance [AccountableTree α] {done : List Task} {task : Task} {root : α}
    {level : List (Reached α)} {e : ResolutionError} (hlevel : reach done root = .ok level)
    (h : advance task level = .error e) : ∃ l node place, Reaches done root l node ∧
      task.Offends l node place e ∧ ∀ l' node' place' e', Reaches done root l' node' →
        task.Offends l' node' place' e' →
          place' = place ∧ e' = e ∨ Location.PartsBefore place place' := by
  obtain ⟨front, here, back, rfl, hfits, hfails⟩ := exists_of_advance_eq_error h
  obtain ⟨place, hoffends, hfirst⟩ := Task.exists_of_below_eq_error hfails
  have hreach : Reaches done root here.location here.node :=
    (mem_reach hlevel _ _).mp (List.mem_append_right _ List.mem_cons_self)
  refine ⟨here.location, here.node, place, hreach, hoffends, ?_⟩
  intro l' node' place' e' hreach' hoffends'
  rcases List.mem_append.mp ((mem_reach hlevel l' node').mpr hreach') with hmem | hmem
  · exact absurd (hfits _ hmem) hoffends'.not_fits
  · rcases List.mem_cons.mp hmem with rfl | hmem
    · exact hfirst place' e' hoffends'
    · -- the nodes behind are at greater positions, and so is everything below them
      obtain ⟨-, hback, -⟩ := List.pairwise_append.mp (pairwise_reach hlevel)
      have hparts := (List.pairwise_cons.mp hback).1 _ hmem
      obtain ⟨below, rfl, -⟩ := hoffends.exists_below
      obtain ⟨below', rfl, -⟩ := hoffends'.exists_below
      exact .inr (hparts.append below below')

/-- Reading fails with the first offence. -/
theorem exists_firstOffence_of_read [AccountableTree α] {plan : Plan} {root : α}
    {e : ResolutionError} (h : plan.read root = .error e) :
    ∃ o, plan.FirstOffence root o ∧ o.error = e := by
  obtain ⟨done, task, rest, level, htasks, hlevel, hfails⟩ :=
    exists_of_reach_eq_error (map_eq_error_iff.mp h)
  obtain ⟨l, node, place, hreach, hoffends, hfirst⟩ := exists_first_of_advance hlevel hfails
  have htake : plan.tasks.take done.length = done := by simp [htasks]
  have htask : plan.tasks[done.length]? = some task := by simp [htasks]
  have hoffence : plan.HasOffence root ⟨done.length, place, e⟩ :=
    ⟨task, l, node, htask, by rwa [htake], hoffends⟩
  refine ⟨⟨done.length, place, e⟩, ⟨hoffence, ?_⟩, rfl⟩
  rintro ⟨depth', place', e'⟩ hoffence'
  obtain ⟨task', l', node', htask', hreach', hoffends'⟩ := id hoffence'
  rcases Nat.lt_trichotomy done.length depth' with hlt | rfl | hlt
  · exact .inr (.inl hlt)
  · obtain rfl : task = task' := Option.some.inj (htask.symm.trans htask')
    rw [htake] at hreach'
    rcases hfirst l' node' place' e' hreach' hoffends' with ⟨rfl, rfl⟩ | hparts
    · exact .inl rfl
    · exact .inr (.inr ⟨rfl, wildcardPositions_lt hparts hoffence.along hoffence'.along⟩)
  · -- the tasks before have been followed at every node
    have hbefore : done[depth']? = some task' := by
      rw [← htake, List.getElem?_take_of_lt hlt]
      exact htask'
    have htake' : done.take depth' = plan.tasks.take depth' := by
      rw [htasks, List.take_append_of_le_length (Nat.le_of_lt hlt)]
    exact absurd (fits_of_reach hlevel hbefore (htake' ▸ hreach')) hoffends'.not_fits

/-- Reading fails when there is an offence, and with the first one. -/
theorem read_eq_error_iff [AccountableTree α] {plan : Plan} {root : α} :
    ((∃ e, plan.read root = .error e) ↔ ∃ o, plan.HasOffence root o) ∧
      ∀ e, plan.read root = .error e ↔ ∃ o, plan.FirstOffence root o ∧ o.error = e := by
  have fails : ∀ o, plan.HasOffence root o → ∃ e, plan.read root = .error e := by
    intro o hoffence
    cases hread : plan.read root with
    | ok values => exact absurd hoffence (not_hasOffence_of_read hread o)
    | error e => exact ⟨e, rfl⟩
  refine ⟨⟨?_, fun ⟨o, hoffence⟩ => fails o hoffence⟩, fun e => ⟨exists_firstOffence_of_read, ?_⟩⟩
  · rintro ⟨e, h⟩
    obtain ⟨o, hfirst, -⟩ := exists_firstOffence_of_read h
    exact ⟨o, hfirst.1⟩
  · rintro ⟨o, hfirst, rfl⟩
    obtain ⟨e, h⟩ := fails o hfirst.1
    obtain ⟨o', hfirst', rfl⟩ := exists_firstOffence_of_read h
    rwa [hfirst.unique hfirst']

end Plan

/-! ## Offences in the two flavors -/

/-- What is wrong with a node of a document for a field is that it is no object. -/
theorem Json.offends_field_iff {here l : Location} {node : Json} {name : String}
    {e : ResolutionError} : (Task.field name).Offends here node l e ↔
      (∀ members, node ≠ .object members) ∧ l = here ∧
        e = .shapeMismatch here.text .object node.kind := by
  constructor
  · rintro (refused | refused)
    · refine ⟨?_, rfl, rfl⟩
      rintro members rfl
      cases refused
    · exact absurd refused (Json.field?_ne_undeclared node name _ _)
  · rintro ⟨hnode, rfl, rfl⟩
    refine .noFields ?_
    cases node with
    | object members => exact absurd rfl (hnode members)
    | _ => rfl

/-- What is wrong with a structured value for a field is that it is no record, or one that does
not declare the field. -/
theorem Datum.offends_field_iff {here l : Location} {node : Datum} {name : String}
    {e : ResolutionError} : (Task.field name).Offends here node l e ↔
      l = here ∧ ((∀ schema slots, node ≠ .struct schema slots) ∧
          e = .shapeMismatch here.text .object node.kind ∨
        ∃ schema slots, node = .struct schema slots ∧ name ∉ schema.fieldNames ∧
          e = .undeclaredField here.text name schema.fieldNames) := by
  constructor
  · rintro (refused | refused)
    · rcases Datum.field?_eq_error refused with ⟨hnode, -⟩ | ⟨_, _, -, -, hrefused⟩
      · exact ⟨rfl, .inl ⟨hnode, rfl⟩⟩
      · cases hrefused
    · rcases Datum.field?_eq_error refused with
        ⟨-, hrefused⟩ | ⟨schema, slots, rfl, hname, hrefused⟩
      · cases hrefused
      · cases hrefused
        exact ⟨rfl, .inr ⟨schema, slots, rfl, hname, rfl⟩⟩
  · rintro ⟨rfl, ⟨hnode, rfl⟩ | ⟨schema, slots, rfl, hname, rfl⟩⟩
    · refine .noFields ?_
      cases node with
      | struct schema slots => exact absurd rfl (hnode schema slots)
      | _ => rfl
    · exact .undeclared (Datum.child?_field_of_undeclared (Schema.field?_eq_none_iff.mpr hname))

/-- Reading along a plan fails when there is an offence in the record, and with the first one: that
after the fewest tasks, and among these the one at the smallest positions. The offences are the
nodes that some of the tasks lead to and that do not fit the next task: for a field, what is no
object or record, and a record that does not declare the field; for elements, what is no array,
and a selected element that is itself an array. What is reported names the node, or this element,
and the kind of the node. -/
theorem Plan.read_eq_first_offence (plan : Plan) :
    (∀ root : Json, ((∃ e, plan.read root = .error e) ↔ ∃ o, plan.HasOffence root o) ∧
      ∀ e, plan.read root = .error e ↔ ∃ o, plan.FirstOffence root o ∧ o.error = e) ∧
    (∀ root : Datum, ((∃ e, plan.read root = .error e) ↔ ∃ o, plan.HasOffence root o) ∧
      ∀ e, plan.read root = .error e ↔ ∃ o, plan.FirstOffence root o ∧ o.error = e) ∧
    (∀ (here l : Location) (node : Json) (name : String) (e : ResolutionError),
      (Task.field name).Offends here node l e ↔ (∀ members, node ≠ .object members) ∧ l = here ∧
        e = .shapeMismatch here.text .object node.kind) ∧
    ∀ (here l : Location) (node : Datum) (name : String) (e : ResolutionError),
      (Task.field name).Offends here node l e ↔
        l = here ∧ ((∀ schema slots, node ≠ .struct schema slots) ∧
            e = .shapeMismatch here.text .object node.kind ∨
          ∃ schema slots, node = .struct schema slots ∧ name ∉ schema.fieldNames ∧
            e = .undeclaredField here.text name schema.fieldNames) :=
  ⟨fun _ => read_eq_error_iff, fun _ => read_eq_error_iff,
    fun _ _ _ _ _ => Json.offends_field_iff, fun _ _ _ _ _ => Datum.offends_field_iff⟩

/-- What is wrong one level down is reported before what is wrong further down and further to the
left. -/
example : Plan.read ⟨"$.a[*].b[*]", [.field "a", .elements .every, .field "b", .elements .every]⟩
    (Json.object [("a", .array [.object [("b", .array [.array []])], .null, .string ""])]) =
      .error (.shapeMismatch "$.a[2]" .object "string") := by
  rfl

end RecordCipher
