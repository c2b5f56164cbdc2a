import RecordCipher.Proofs.Plan.Frame
import RecordCipher.Proofs.Tree.Document
import RecordCipher.Proofs.Tree.Structured

/-!
# Reading and writing fail alike

Reading and writing are two traversals. Both go down level by level and meet the nodes of a level
in the same order, but writing sets replacements before it looks whether the next task can be
followed. A level fails with the first failure among its nodes. So the two agree on a record when
they agree on each node, and there they do, unless a replacement has changed the node before it
is looked at.

## Main definitions

* `Replacements.Mends`: the failures that replacements may do away with
* `Plan.MayLookUp`: the texts of the locations that a plan may look up a replacement for
* `Plan.Addresses`: the texts of the locations at the end of all tasks of a plan

## Main results

* `verdict_advance`, `verdict_rewriteReached`: a level fails with the first failure among its
  nodes, for reading and for writing
* `Task.write_unmet`, `writeLevels_unmet`: writing without replacements that are looked up
* `Task.write_follows`: writing what is no array at a node of a document
* `Plan.write_unmet`, `Plan.write_follows`, `Plan.write_agrees`: the same for whole plans
-/

namespace RecordCipher

/-! ## Levels -/

section Levels

variable {α : Type} [Tree α]

theorem frontier_nil (tasks : List Task) : frontier tasks ([] : List (Reached α)) = .ok [] := by
  induction tasks with
  | nil => rfl
  | cons task rest ih => exact ih

theorem advance_append {task : Task} {front back out : List (Reached α)} :
    advance task (front ++ back) = .ok out ↔ ∃ out₁ out₂,
      advance task front = .ok out₁ ∧ advance task back = .ok out₂ ∧ out = out₁ ++ out₂ := by
  induction front generalizing out with
  | nil => simp [advance]
  | cons here front ih =>
    simp only [List.cons_append, advance, bind_eq_ok_iff, ih, pure, Except.pure, Except.ok.injEq]
    constructor
    · rintro ⟨below, hbelow, _, ⟨out₁, out₂, h₁, h₂, rfl⟩, rfl⟩
      exact ⟨_, out₂, ⟨below, hbelow, out₁, h₁, rfl⟩, h₂, (List.append_assoc ..).symm⟩
    · rintro ⟨_, out₂, ⟨below, hbelow, out₁, h₁, rfl⟩, h₂, rfl⟩
      exact ⟨below, hbelow, _, ⟨out₁, out₂, h₁, h₂, rfl⟩, (List.append_assoc ..).symm⟩

/-- What is reached from several nodes is what is reached from some of them, and then what is
reached from the others. -/
theorem frontier_append {tasks : List Task} {front back out : List (Reached α)} :
    frontier tasks (front ++ back) = .ok out ↔ ∃ out₁ out₂,
      frontier tasks front = .ok out₁ ∧ frontier tasks back = .ok out₂ ∧
        out = out₁ ++ out₂ := by
  induction tasks generalizing front back out with
  | nil => simp [frontier, eq_comm]
  | cons task rest ih =>
    simp only [frontier, bind_eq_ok_iff, advance_append]
    constructor
    · rintro ⟨_, ⟨level₁, level₂, h₁, h₂, rfl⟩, hout⟩
      obtain ⟨out₁, out₂, hout₁, hout₂, rfl⟩ := ih.mp hout
      exact ⟨out₁, out₂, ⟨level₁, h₁, hout₁⟩, ⟨level₂, h₂, hout₂⟩, rfl⟩
    · rintro ⟨out₁, out₂, ⟨level₁, h₁, hout₁⟩, ⟨level₂, h₂, hout₂⟩, rfl⟩
      exact ⟨_, ⟨level₁, level₂, h₁, h₂, rfl⟩, ih.mpr ⟨out₁, out₂, hout₁, hout₂, rfl⟩⟩

/-- Going down by some tasks and then by others. -/
theorem frontier_append_tasks (tasks rest : List Task) (reached : List (Reached α)) :
    frontier (tasks ++ rest) reached = frontier tasks reached >>= frontier rest := by
  induction tasks generalizing reached with
  | nil => rfl
  | cons task tasks ih =>
    rw [List.cons_append, frontier, frontier, bind_assoc]
    exact congrArg _ (funext ih)

/-- Going one level down fails with the first failure among the nodes. -/
theorem verdict_advance (task : Task) (reached : List (Reached α)) :
    verdict (advance task reached) = forM reached fun here => verdict (task.below here) := by
  induction reached with
  | nil => rfl
  | cons here rest ih =>
    rw [advance, verdict_bind, List.forM_cons, ← ih, ← bind_const]
    exact congrArg _ (funext fun below => verdict_bind_pure _ _)

/-- Going down by a task more. -/
theorem reach_concat (tasks : List Task) (task : Task) (root : α) :
    reach (tasks ++ [task]) root = reach tasks root >>= advance task := by
  rw [reach, frontier_append_tasks]
  refine congrArg _ (funext fun level => ?_)
  rw [frontier]
  exact bind_pure _

end Levels

/-! ## Rewriting a level -/

section Rewriting

variable {α : Type} [Tree α] {rewrite : Location → α → Except ResolutionError α}

/-- Rewriting below the selected items fails with the first failure among what is reached from
them. -/
theorem verdict_rewriteItems {tasks : List Task} {here : Location} {selection : Selection}
    {i : Nat} {items : List α} {below reached : List (Reached α)}
    (one : ∀ here node reached, frontier tasks [⟨here, node⟩] = .ok reached →
      verdict (rewriteReached rewrite tasks here node) =
        forM reached fun r => verdict (rewrite r.location r.node))
    (hbelow : selectedElements here selection i items = .ok below)
    (h : frontier tasks below = .ok reached) :
    verdict (rewriteItems (rewriteReached rewrite tasks) here selection i items) =
      forM reached fun r => verdict (rewrite r.location r.node) := by
  -- Induction on the items, from whatever position they are counted.
  induction items generalizing i below reached with
  | nil =>
    obtain rfl : [] = below := by simpa [selectedElements] using hbelow
    rw [frontier_nil] at h
    cases h
    rfl
  | cons item rest ih =>
    rw [selectedElements] at hbelow
    rw [rewriteItems]
    split at hbelow
    · next hc =>
      rw [if_pos hc]
      split at hbelow
      · -- an array inside an array: nothing is reached
        cases hbelow
      · obtain ⟨others, hothers, hbelow⟩ := bind_eq_ok_iff.mp hbelow
        obtain rfl : [⟨here.index i, item⟩] ++ others = below := by
          simpa [pure, Except.pure] using hbelow
        obtain ⟨first, last, hfirst, hlast, rfl⟩ := frontier_append.mp h
        rw [verdict_bind, List.forM_append, ← one _ _ _ hfirst, ← ih hothers hlast, ← bind_const]
        exact congrArg _ (funext fun _ => verdict_bind_pure _ _)
    · next hc =>
      rw [if_neg hc, verdict_map]
      exact ih hbelow h

/-- Rewriting what tasks lead to fails with the first failure among these nodes, in the order in
which reading meets them. -/
theorem verdict_rewriteReached [LawfulTree α] {tasks : List Task} {here : Location} {node : α}
    {reached : List (Reached α)} (h : frontier tasks [⟨here, node⟩] = .ok reached) :
    verdict (rewriteReached rewrite tasks here node) =
      forM reached fun r => verdict (rewrite r.location r.node) := by
  -- Induction on the tasks: the others go on with each node that the first one selects.
  induction tasks generalizing here node reached with
  | nil =>
    obtain rfl : [⟨here, node⟩] = reached := by simpa [frontier] using h
    rw [List.forM_cons, List.forM_nil]
    exact (bind_pure _).symm
  | cons task rest ih =>
    obtain ⟨level, hlevel, hrest⟩ := bind_eq_ok_iff.mp h
    simp only [advance, bind_eq_ok_iff, pure, Except.pure] at hlevel
    obtain ⟨below, hbelow, _, ⟨⟩, hlevel⟩ := hlevel
    obtain rfl : below = level := by simpa using hlevel
    cases task with
    | field name =>
      simp only [Task.below, LawfulTree.field?_eq] at hbelow
      rcases hf : Tree.focusField? node name with e | _ | f <;>
        simp only [hf, Except.map, Option.map] at hbelow
      · cases hbelow
      · -- there is no such field
        cases hbelow
        rw [frontier_nil] at hrest
        cases hrest
        simp only [rewriteReached, hf]
        rfl
      · cases hnull : Tree.isNull f.part with
        | true =>
          simp only [hnull, if_true] at hbelow
          cases hbelow
          rw [frontier_nil] at hrest
          cases hrest
          simp only [rewriteReached, hf, hnull, if_true]
          rfl
        | false =>
          simp only [hnull, Bool.false_eq_true, if_false] at hbelow
          cases hbelow
          simp only [rewriteReached, hf, hnull, Bool.false_eq_true, if_false, verdict_map]
          exact ih hrest
    | elements selection =>
      simp only [Task.below, LawfulTree.elements?_eq] at hbelow
      cases hf : Tree.focusElements? node with
      | none => simp [hf] at hbelow
      | some f =>
        simp only [hf, Option.map] at hbelow
        simp only [rewriteReached, hf, verdict_map]
        exact verdict_rewriteItems (fun _ _ _ => ih) hbelow hrest

/-- Rewriting leaves a node as it is when it leaves everything as it is that tasks lead to. -/
theorem eq_of_rewriteReached [LawfulTree α] {tasks : List Task} {here : Location} {node out : α}
    (keeps : ∀ l x x', Reaches tasks node l x → rewrite (here ++ l) x = .ok x' → x' = x)
    (h : rewriteReached rewrite tasks here node = .ok out) : out = node := by
  induction tasks generalizing here node out with
  | nil => exact keeps [] node out ⟨rfl, rfl⟩ (by simpa [rewriteReached] using h)
  | cons task rest ih =>
    -- below the node, the other tasks leave everything as it is
    have below : ∀ step child out, task.selects step = true →
        Tree.child? node step = .ok (some child) → Tree.isNull child = false →
          rewriteReached rewrite rest (here ++ [step]) child = .ok out → out = child := by
      intro step child out hsel hchild hnull hout
      refine ih (fun l x x' hreach hx => ?_) hout
      apply keeps (step :: l) x x' ⟨hsel, child, hchild, hnull, hreach⟩
      simpa using hx
    cases task with
    | field name =>
      rcases rewriteReached_field_eq_ok h with ⟨f, child, hf, hnull, hchild, rfl⟩ | ⟨rfl, -⟩
      · rw [below (.field name) f.part child (by simp [Task.selects]) (child?_of_focusField? hf)
          hnull hchild, LawfulTree.put_field_self hf]
      · rfl
    | elements selection =>
      rcases rewriteReached_elements_eq_ok h with ⟨f, items, hf, hitems, rfl⟩ | ⟨rfl, -⟩
      · have helems := elements?_of_focusElements? hf
        obtain rfl : items = f.part := by
          apply List.ext_getElem? fun k => ?_
          cases hget : f.part[k]? with
          | none =>
            rw [List.getElem?_eq_none_iff] at hget ⊢
            rwa [rewriteItems_length hitems]
          | some item =>
            have spec := rewriteItems_spec hitems k item hget
            split at spec
            · next hc =>
              obtain ⟨item', hitem', hget'⟩ := spec
              rw [Nat.zero_add] at hc hitem'
              rw [hget', below (.index k) item item' hc.1
                (by rw [Tree.child?_index helems, hget]) hc.2 hitem']
            · exact spec
        exact LawfulTree.put_elements_self hf
      · rfl

end Rewriting

/-! ## Replacements that are not looked up -/

section Unmet

variable {α : Type} [Tree α] [LawfulTree α] {replacements : Replacements α}

omit [LawfulTree α] in
/-- Writing looks for arrays inside arrays as reading does. -/
theorem checkNoArray_eq_verdict (here : Location) (selection : Selection) (i : Nat)
    (items : List α) :
    checkNoArray here selection i items = verdict (selectedElements here selection i items) := by
  induction items generalizing i with
  | nil => rfl
  | cons item rest ih =>
    rw [checkNoArray, selectedElements]
    cases hc : selection.selects i && !Tree.isNull item with
    | false => simpa using ih (i + 1)
    | true =>
      cases harray : Tree.isArray item with
      | true => simp
      | false =>
        simp only [Bool.and_false, Bool.false_eq_true, if_false, if_true]
        rw [verdict_bind_pure]
        exact ih (i + 1)

omit [LawfulTree α] in
theorem setReplacedElements_unmet {here : Location} {positions : List Nat} {node : α}
    (hnone : ∀ i ∈ positions, replacements.get? (here.index i).text = none) :
    setReplacedElements replacements here positions node = .ok node := by
  induction positions with
  | nil => rfl
  | cons i rest ih =>
    obtain ⟨hi, hrest⟩ := List.forall_mem_cons.mp hnone
    rw [setReplacedElements, hi]
    exact ih hrest

/-- Where a task finds no replacements, writing only looks whether the task can be followed. -/
theorem Task.write_unmet {task : Task} {here : Location} {node : α}
    (hnone : ∀ step, task.selects step = true →
      replacements.get? (here ++ [step]).text = none) :
    task.write replacements here node = (task.below ⟨here, node⟩).map fun _ => node := by
  cases task with
  | field name =>
    have hfield : replacements.get? (here.field name).text = none := by
      exact hnone (.field name) (by simp [selects])
    simp only [write, setReplacedField, hfield, below, LawfulTree.field?_eq]
    rcases hf : Tree.focusField? node name with e | _ | f <;>
      simp [hf, bind, Except.bind, Except.map]
  | elements selection =>
    simp only [write, below, LawfulTree.elements?_eq]
    cases hf : Tree.focusElements? node with
    | none => rfl
    | some f =>
      have hset : setReplacedElements replacements here (selection.positions f.part.length) node =
          .ok node := by
        apply setReplacedElements_unmet
        intro i hi
        apply hnone (.index i)
        exact ((Selection.mem_positions selection f.part.length i).mp hi).1
      simp only [Option.map, hset, checkNoArray_eq_verdict]
      cases helements : selectedElements here selection 0 f.part <;>
        simp [hf, helements, bind, Except.bind, Except.map, pure, Except.pure]

variable {done : List Task} {root : α} {reached : List (Reached α)}

/-- A level at which no replacements are found is left as it is, or fails as reading does. -/
theorem rewriteReached_unmet {task : Task}
    (hreached : reach done root = .ok reached)
    (hnone : ∀ l, done.length < l.length → Along (done ++ [task]) l →
      replacements.get? l.text = none) :
    rewriteReached (fun here node => task.write replacements here node) done Location.root root =
      (advance task reached).map fun _ => root := by
  -- at the nodes that are reached there are no replacements
  have unmet : ∀ l node, Reaches done root l node →
      task.write replacements l node = (task.below ⟨l, node⟩).map fun _ => node := by
    intro l node hreach
    apply Task.write_unmet
    intro step hstep
    apply hnone
    · simp [hreach.length_eq]
    · exact hreach.along.append hreach.length_eq ⟨hstep, trivial⟩
  apply eq_map_of_verdict
  · rw [verdict_rewriteReached hreached, verdict_advance]
    apply forM_congr
    intro here hm
    have hreach := (mem_reach hreached here.location here.node).mp hm
    rw [unmet here.location here.node hreach, verdict_map]
  · intro out
    apply eq_of_rewriteReached
    intro l node node' hreach hnode
    have hnode : task.write replacements l node = .ok node' := hnode
    rw [unmet l node hreach, map_eq_ok_iff] at hnode
    obtain ⟨-, -, rfl⟩ := hnode
    rfl

omit [LawfulTree α] in
/-- Writing at the levels of some tasks and then of others. -/
theorem writeLevels_append (done tasks rest : List Task) (root : α) :
    writeLevels replacements done (tasks ++ rest) root =
      writeLevels replacements done tasks root >>=
        writeLevels replacements (done ++ tasks) rest := by
  induction tasks generalizing done root with
  | nil => simp [writeLevels, bind, Except.bind]
  | cons task tasks ih =>
    rw [List.cons_append, writeLevels, writeLevels, bind_assoc]
    refine congrArg _ (funext fun written => ?_)
    rw [ih, List.append_assoc, List.singleton_append]

/-- Writing at levels at which no replacements are found. -/
theorem writeLevels_unmet {tasks : List Task}
    (hreached : reach done root = .ok reached)
    (hnone : ∀ l, done.length < l.length → Along (done ++ tasks) l →
      replacements.get? l.text = none) :
    writeLevels replacements done tasks root = (frontier tasks reached).map fun _ => root := by
  -- Induction on the tasks that are left, for the nodes that those before have reached.
  induction tasks generalizing done reached with
  | nil => rfl
  | cons task rest ih =>
    have hlevel : ∀ l, done.length < l.length → Along (done ++ [task]) l →
        replacements.get? l.text = none := by
      intro l hlength hl
      have hl := hl.append_right rest
      rw [List.append_assoc] at hl
      exact hnone l hlength hl
    have level := rewriteReached_unmet hreached hlevel
    rw [writeLevels, level, frontier]
    cases hadvance : advance task reached with
    | error e => rfl
    | ok next =>
      have hnext : reach (done ++ [task]) root = .ok next := by
        rw [reach_concat, hreached]
        exact hadvance
      refine ih hnext fun l hlength hl => ?_
      rw [List.append_assoc] at hl
      refine hnone l ?_ hl
      rw [List.length_append] at hlength
      omega

/-- When only the last task finds replacements, what is written are the nodes that the others
lead to. -/
theorem writeLevels_concat {init : List Task} (last : Task)
    (hnone : ∀ l : Location, l ≠ [] → Along init l → replacements.get? l.text = none) :
    writeLevels replacements [] (init ++ [last]) root = reach init root >>= fun _ =>
      rewriteReached (fun here node => last.write replacements here node) init Location.root
        root := by
  have levels : writeLevels replacements [] init root = (reach init root).map fun _ => root :=
    writeLevels_unmet rfl fun l hlength hl => hnone l (List.ne_nil_of_length_pos hlength) hl
  rw [writeLevels_append, levels]
  cases reach init root with
  | error e => rfl
  | ok reached =>
    show (rewriteReached _ init Location.root root >>= fun out => pure out) = _
    exact bind_pure _

end Unmet

/-! ## The last level of a document -/

/-- The failures that replacements may do away with: an array inside an array is replaced. -/
def Replacements.Mends {α : Type} (replacements : Replacements α) (e : ResolutionError) : Prop :=
  ∃ path, e = .nestedArray path ∧ (replacements.get? path).isSome = true

section Documents

/-- Items of which some were replaced by what is no array are checked as they were before. -/
theorem checkNoArray_follows {α : Type} [Tree α] {replacements : Replacements α}
    {here : Location} {selection : Selection} {i : Nat} {items items' : List α}
    (length : items'.length = items.length)
    (replaced : ∀ k, items'[k]? = items[k]? ∨ ∃ value,
      replacements.get? (here.index (i + k)).text = some value ∧ Tree.isArray value = false ∧
        items'[k]? = some value) :
    Follows replacements.Mends (checkNoArray here selection i items)
      (checkNoArray here selection i items') := by
  -- Induction on the items, from whatever position they are counted.
  induction items generalizing i items' with
  | nil =>
    obtain rfl := List.eq_nil_of_length_eq_zero length
    exact .refl _ _
  | cons item rest ih =>
    cases items' with
    | nil => simp at length
    | cons item' rest' =>
      have tail : Follows replacements.Mends (checkNoArray here selection (i + 1) rest)
          (checkNoArray here selection (i + 1) rest') := by
        refine ih (by simpa using length) fun k => ?_
        have shift : i + 1 + k = i + (k + 1) := by omega
        rw [shift]
        simpa using replaced (k + 1)
      rw [checkNoArray, checkNoArray]
      rcases replaced 0 with hsame | ⟨value, hget, harray, hvalue⟩
      · obtain rfl : item' = item := by simpa using hsame
        split
        · exact .refl _ _
        · exact tail
      · obtain rfl : item' = value := by simpa using hvalue
        rw [harray, Bool.and_false, if_neg Bool.false_ne_true]
        split
        · -- the array that was here is what the check fails at, and it was replaced
          rw [Nat.add_zero] at hget
          refine ⟨fun _ hok => ?_, fun e hmends he => absurd ?_ hmends⟩
          · cases hok
          · cases he
            exact ⟨_, rfl, by simp [hget]⟩
        · exact tail

variable {replacements : Replacements Json} {here : Location}

/-- The replacements for elements of a document that are there can be set. -/
theorem Json.exists_setReplacedElements {positions : List Nat} {items : List Json}
    (hpositions : ∀ i ∈ positions, i < items.length) :
    ∃ items', setReplacedElements replacements here positions (array items) =
        .ok (array items') ∧ items'.length = items.length ∧
      ∀ k, items'[k]? = items[k]? ∨ ∃ value,
        replacements.get? (here.index k).text = some value ∧ items'[k]? = some value := by
  -- Induction on the positions, for the items that the ones before have made.
  induction positions generalizing items with
  | nil => exact ⟨items, rfl, rfl, fun k => .inl rfl⟩
  | cons position rest ih =>
    obtain ⟨hlt, hrest⟩ := List.forall_mem_cons.mp hpositions
    rw [setReplacedElements]
    cases hget : replacements.get? (here.index position).text with
    | none => exact ih hrest
    | some value =>
      have hset : (Tree.setElement (array items) position value).ofCopy =
          .ok (array (items.set position value)) :=
        Outcome.ofCopy_eq_ok_iff.mpr (setElement_of_lt hlt value)
      simp only [hset]
      obtain ⟨items', hitems, hlength, spec⟩ :=
        @ih (items.set position value) (by simpa using hrest)
      refine ⟨items', hitems, by simpa using hlength, fun k => ?_⟩
      rcases spec k with hsame | hvalue
      · by_cases hk : k = position
        · subst hk
          rw [List.getElem?_set_self hlt] at hsame
          exact .inr ⟨value, hget, hsame⟩
        · rw [List.getElem?_set_ne (Ne.symm hk)] at hsame
          exact .inl hsame
      · exact .inr hvalue

/-- At a node of a document, writing what is no array follows reading. -/
theorem Task.write_follows (harray : ∀ path value, replacements.get? path = some value →
      Tree.isArray value = false) (task : Task) (node : Json) :
    Follows replacements.Mends (task.below ⟨here, node⟩) (task.write replacements here node) := by
  cases task with
  | field name =>
    apply Follows.of_verdict_eq
    cases node with
    | object members =>
      -- a member can be set, and asked for
      obtain ⟨members', hset⟩ : ∃ members', setReplacedField replacements here name
          (Json.object members) = .ok (Json.object members') := by
        unfold setReplacedField
        cases replacements.get? (here.field name).text with
        | none => exact ⟨members, rfl⟩
        | some value => exact ⟨setMember name value members, rfl⟩
      have hwrite := write_field_eq_ok_iff.mpr ⟨hset, _, rfl⟩
      have hbelow := (below_ok_iff (field name) ⟨here, Json.object members⟩).mpr ⟨_, rfl⟩
      rw [hwrite, verdict_eq_ok_iff.mpr hbelow]
      rfl
    | _ =>
      -- there are no members, with or without a replacement
      simp only [write, below, setReplacedField]
      cases replacements.get? (here.field name).text <;> rfl
  | elements selection =>
    cases node with
    | array items =>
      obtain ⟨items', hset, hlength, spec⟩ :=
        @Json.exists_setReplacedElements replacements here (selection.positions items.length) items
          fun i hi => ((Selection.mem_positions selection items.length i).mp hi).2
      have hwrite : verdict ((elements selection).write replacements here (Json.array items)) =
          checkNoArray here selection 0 items' := by
        simp only [write, Tree.elements?, Json.elements?, hset]
        show verdict (checkNoArray here selection 0 items' >>= fun _ => pure _) = _
        rw [verdict_bind_pure]
        cases checkNoArray here selection 0 items' <;> rfl
      have hbelow : verdict ((elements selection).below ⟨here, Json.array items⟩) =
          checkNoArray here selection 0 items := by
        rw [checkNoArray_eq_verdict]
        rfl
      rw [← follows_verdict_iff, hwrite, hbelow]
      apply checkNoArray_follows hlength
      intro k
      rw [Nat.zero_add]
      rcases spec k with hsame | ⟨value, hget, hvalue⟩
      · exact .inl hsame
      · exact .inr ⟨value, hget, harray _ _ hget, hvalue⟩
    | _ => exact .of_verdict_eq rfl

end Documents

/-! ## Writing along a plan -/

namespace Plan

/-- The texts of the locations that a plan may look up a replacement for: those along its first
tasks, or, without tasks, that of the root. -/
def MayLookUp (plan : Plan) (path : String) : Prop :=
  if plan.tasks = [] then path = Location.root.text
  else ∃ l : Location, l ≠ [] ∧ Along plan.tasks l ∧ l.text = path

/-- The texts of the locations at the end of all tasks of a plan. -/
def Addresses (plan : Plan) (path : String) : Prop :=
  ∃ l : Location, l.length = plan.tasks.length ∧ Along plan.tasks l ∧ l.text = path

variable {plan : Plan}

/-- Writing without replacements that are looked up leaves a record as it is, or fails as reading
does. -/
theorem write_unmet {α : Type} [Tree α] [LawfulTree α] {root : α} {replacements : Replacements α}
    (hne : replacements.isEmpty = false)
    (hnone : ∀ path, plan.MayLookUp path → replacements.get? path = none) :
    plan.write root replacements = (plan.read root).map fun _ => root := by
  unfold MayLookUp at hnone
  rw [write, hne, if_neg Bool.false_ne_true, read]
  by_cases htasks : plan.tasks = []
  · simp only [htasks, if_true] at hnone ⊢
    rw [hnone _ rfl]
    rfl
  · have levels : writeLevels replacements [] plan.tasks root =
        (reach plan.tasks root).map fun _ => root := by
      apply writeLevels_unmet rfl
      intro l hlength hl
      simp only [htasks, if_false] at hnone
      exact hnone l.text ⟨l, List.ne_nil_of_length_pos hlength, hl, rfl⟩
    rw [if_neg (by simpa using htasks), levels]
    cases reach plan.tasks root <;> rfl

/-- What only some tasks of a plan lead to is not at the end of all of them. -/
theorem not_addresses {init rest : List Task} (htasks : plan.tasks = init ++ rest)
    (hrest : rest ≠ []) {l : Location} (hl : Along init l) : ¬ plan.Addresses l.text := by
  rintro ⟨l', hlength, hl', htext⟩
  rw [htasks] at hlength hl'
  obtain rfl := (hl.append_right rest).text_injective hl' htext.symm
  have hle := hl.length_le
  have hpos := List.length_pos_iff.mpr hrest
  rw [List.length_append] at hlength
  omega

/-- In a document, what is no array and is at the end of all tasks is written where reading
succeeds, and where it does not writing fails as reading does, unless it was at a value that was
replaced. -/
theorem write_follows {root : Json} {replacements : Replacements Json}
    (hne : replacements.isEmpty = false)
    (haddresses : ∀ path value, replacements.get? path = some value →
      plan.Addresses path ∧ Tree.isArray value = false) :
    Follows replacements.Mends (plan.read root) (plan.write root replacements) := by
  rw [← follows_verdict_iff, read, verdict_map, write, hne, if_neg Bool.false_ne_true]
  rcases List.eq_nil_or_concat' plan.tasks with htasks | ⟨init, last, htasks⟩
  · rw [htasks]
    exact .of_verdict_eq rfl
  · have hnone : ∀ l : Location, l ≠ [] → Along init l → replacements.get? l.text = none := by
      intro l _ hl
      by_contra hget
      obtain ⟨value, hvalue⟩ := Option.ne_none_iff_exists'.mp hget
      exact not_addresses htasks (List.cons_ne_nil last []) hl (haddresses l.text value hvalue).1
    have hnonempty : plan.tasks.isEmpty = false := by simp [htasks]
    rw [hnonempty, if_neg Bool.false_ne_true, htasks, writeLevels_concat last hnone, reach_concat]
    cases hreach : reach init root with
    | error e => exact .refl _ _
    | ok reached =>
      -- the last level: each node is written where it can be read
      show Follows _ (verdict (advance last reached)) (verdict (rewriteReached _ init _ root))
      rw [verdict_advance, verdict_rewriteReached hreach]
      apply Follows.forM
      intro here _
      rw [follows_verdict_iff]
      exact Task.write_follows (fun path value hget => (haddresses path value hget).2) last
        here.node

/-- Where writing agrees with reading: always, when no replacement is filed where the plan may
look it up, and in documents, but for arrays inside arrays that are replaced, when all of them
are no arrays and for the end of the plan. -/
theorem write_agrees (plan : Plan) :
    (∀ (α : Type) [Tree α] [LawfulTree α] (root : α) (replacements : Replacements α),
      replacements.isEmpty = false →
      (∀ path, plan.MayLookUp path → replacements.get? path = none) →
        plan.write root replacements = (plan.read root).map fun _ => root) ∧
    ∀ (root : Json) (replacements : Replacements Json), replacements.isEmpty = false →
      (∀ path value, replacements.get? path = some value →
        plan.Addresses path ∧ Tree.isArray value = false) →
      (∀ values, plan.read root = .ok values → ∃ out, plan.write root replacements = .ok out) ∧
        ∀ e, plan.read root = .error e →
          (∀ path, e = .nestedArray path → replacements.get? path = none) →
            plan.write root replacements = .error e := by
  constructor
  · intro α _ _ root replacements hne hnone
    exact write_unmet hne hnone
  · intro root replacements hne haddresses
    have follows : Follows replacements.Mends (plan.read root) (plan.write root replacements) :=
      write_follows hne haddresses
    refine ⟨follows.ok, fun e he hpath => follows.error e ?_ he⟩
    rintro ⟨path, hnested, hsome⟩
    simp [hpath path hnested] at hsome

/-- A record does not declare a field, whatever there is for another one. An element of a document
has no members, whatever there is for those of the element before. -/
theorem write_agrees_failures :
    write ⟨"$.x", [.field "x"]⟩ (Datum.struct (.struct {} [⟨"a", 0, .scalar .string {}⟩]) [none])
        (SortedMap.ofList [("$.a", .scalar (.string "1"))]) =
      .error (.undeclaredField "$" "x" ["a"]) ∧
    write ⟨"$.l[*].b", [.field "l", .elements .every, .field "b"]⟩
        (Json.object [("l", .array [.object [("b", .string "x")], .string "s"])])
        (SortedMap.ofList [("$.l[0].b", .string "1")]) =
      .error (.shapeMismatch "$.l[1]" .object "string") := by
  constructor
  · rw [(write_agrees _).1 Datum _ _ rfl]
    · rfl
    · intro path hlooks
      obtain ⟨l, hl, halong, rfl⟩ : ∃ l : Location, l ≠ [] ∧ Along [.field "x"] l ∧
          l.text = path := by simpa [MayLookUp] using hlooks
      match l, halong with
      | [], _ => exact absurd rfl hl
      | [step], halong =>
        obtain rfl := (Task.selects_field_iff "x" step).mp halong.1
        rfl
      | _ :: _ :: _, halong => exact halong.2.elim
  · refine ((write_agrees _).2 _ _ rfl ?_).2 _ rfl nofun
    intro path value hget
    obtain ⟨rfl, rfl⟩ : path = "$.l[0].b" ∧ value = .string "1" := by
      simpa using SortedMap.mem_of_get?_ofList hget
    exact ⟨⟨[.field "l", .index 0, .field "b"], rfl, ⟨rfl, rfl, rfl, trivial⟩, rfl⟩, rfl⟩

end Plan

end RecordCipher
