import RecordCipher.Plan.Write
import RecordCipher.Proofs.Plan.Reading

/-!
# Writing branch by branch

Writing goes over the whole record once for each task, and at each level rewrites all nodes
that the tasks before lead to. When it succeeds, the same record comes from going down once,
where every node is written and then the nodes below it, one branch after the other: what is
written at one node does not touch the others of its level.

## Main definitions

* `writeBelow`: writing below one node, branch by branch

## Main results

* `rewriteReached_bind`: rewriting twice is rewriting once, by the one and then the other
* `writeLevels_eq_ok_iff`, `Plan.write_eq_ok_iff`: writing level by level succeeds when writing
  branch by branch does, with the same record
-/

namespace RecordCipher

variable {α : Type} [Tree α]

/-- What writing along tasks makes of a node: the node is written by the first task, and then
every node that this task leads to by the others. -/
def writeBelow (replacements : Replacements α) :
    List Task → Location → α → Except ResolutionError α
  | [], _, node => .ok node
  | task :: rest, here, node => do
    let written ← task.write replacements here node
    rewriteReached (writeBelow replacements rest) [task] here written

/-! ## One task at one node -/

section One

variable {replacements : Replacements α} {here : Location} {node out : α}

theorem Task.write_field_eq_ok_iff {name : String} :
    (Task.field name).write replacements here node = .ok out ↔
      setReplacedField replacements here name node = .ok out ∧
        ∃ focus, Tree.focusField? out name = .ok focus := by
  simp only [write, bind_eq_ok_iff]
  constructor
  · rintro ⟨written, hset, h⟩
    rcases hf : Tree.focusField? written name with e | focus <;> simp only [hf] at h
    · cases h
    · cases h
      exact ⟨hset, focus, hf⟩
  · rintro ⟨hset, focus, hf⟩
    exact ⟨out, hset, by rw [hf]⟩

theorem Task.write_elements_eq_ok_iff {selection : Selection} :
    (Task.elements selection).write replacements here node = .ok out ↔
      ∃ items focus, Tree.elements? node = some items ∧
        setReplacedElements replacements here (selection.positions items.length) node =
          .ok out ∧
        Tree.focusElements? out = some focus ∧
          checkNoArray here selection 0 focus.part = .ok () := by
  simp only [write]
  cases Tree.elements? node with
  | none => simp
  | some items =>
    simp only [bind_eq_ok_iff]
    constructor
    · rintro ⟨written, hset, h⟩
      rcases hf : Tree.focusElements? written with _ | focus <;> simp only [hf] at h
      · cases h
      · obtain ⟨_, hcheck, h⟩ := bind_eq_ok_iff.mp h
        cases h
        exact ⟨items, focus, rfl, hset, hf, hcheck⟩
    · rintro ⟨_, focus, ⟨⟩, hset, hf, hcheck⟩
      refine ⟨out, hset, ?_⟩
      rw [hf]
      exact bind_eq_ok_iff.mpr ⟨(), hcheck, rfl⟩

end One

/-! ## Rewriting the nodes that tasks lead to -/

section Rewriting

variable {rewrite : Location → α → Except ResolutionError α}

/-- The nodes that some tasks and then others lead to are rewritten below those that the first
tasks lead to. -/
theorem rewriteReached_append (tasks rest : List Task) (here : Location) (node : α) :
    rewriteReached rewrite (tasks ++ rest) here node =
      rewriteReached (rewriteReached rewrite rest) tasks here node := by
  -- Induction on the first tasks; the others are only handed down.
  induction tasks generalizing here node with
  | nil => rfl
  | cons task tasks ih =>
    cases task with
    | field name => simp only [List.cons_append, rewriteReached, ih]
    | elements selection =>
      have ih : rewriteReached rewrite (tasks ++ rest) =
          rewriteReached (rewriteReached rewrite rest) tasks := funext₂ ih
      simp only [List.cons_append, rewriteReached, ih]

theorem rewriteItems_length {here : Location} {selection : Selection} {i : Nat}
    {items out : List α} (h : rewriteItems rewrite here selection i items = .ok out) :
    out.length = items.length := by
  induction items generalizing i out with
  | nil =>
    obtain rfl : [] = out := by simpa [rewriteItems] using h
    rfl
  | cons item rest ih =>
    rw [rewriteItems] at h
    split at h
    · obtain ⟨item', -, h⟩ := bind_eq_ok_iff.mp h
      obtain ⟨rest', hrest, hout⟩ := bind_eq_ok_iff.mp h
      obtain rfl : item' :: rest' = out := by simpa [pure, Except.pure] using hout
      simp [ih hrest]
    · obtain ⟨rest', hrest, rfl⟩ := map_eq_ok_iff.mp h
      simp [ih hrest]

/-- Rewriting goes on with the field of a node, unless it is absent or null. -/
theorem rewriteReached_field_eq_ok {name : String} {rest : List Task} {here : Location}
    {node out : α} (h : rewriteReached rewrite (.field name :: rest) here node = .ok out) :
    (∃ f child, Tree.focusField? node name = .ok (some f) ∧ Tree.isNull f.part = false ∧
        rewriteReached rewrite rest (here.field name) f.part = .ok child ∧
          out = f.put child) ∨
      out = node ∧ ∀ f, Tree.focusField? node name = .ok (some f) →
        Tree.isNull f.part = true := by
  rw [rewriteReached] at h
  rcases hf : Tree.focusField? node name with e | _ | f <;> simp only [hf] at h
  · cases h
    exact .inr ⟨rfl, by rintro f ⟨⟩⟩
  · cases h
    exact .inr ⟨rfl, by rintro f ⟨⟩⟩
  · split at h
    · next hnull =>
      cases h
      refine .inr ⟨rfl, ?_⟩
      rintro f' ⟨⟩
      exact hnull
    · next hnull =>
      obtain ⟨child, hchild, hout⟩ := map_eq_ok_iff.mp h
      exact .inl ⟨f, child, rfl, by simpa using hnull, hchild, hout.symm⟩

/-- Rewriting goes on with the elements of a node, if it has any. -/
theorem rewriteReached_elements_eq_ok {selection : Selection} {rest : List Task}
    {here : Location} {node out : α}
    (h : rewriteReached rewrite (.elements selection :: rest) here node = .ok out) :
    (∃ f items, Tree.focusElements? node = some f ∧
        rewriteItems (rewriteReached rewrite rest) here selection 0 f.part = .ok items ∧
          out = f.put items) ∨
      out = node ∧ Tree.focusElements? node = none := by
  rw [rewriteReached] at h
  rcases hf : Tree.focusElements? node with _ | f <;> simp only [hf] at h
  · cases h
    exact .inr ⟨rfl, rfl⟩
  · obtain ⟨items, hitems, hout⟩ := map_eq_ok_iff.mp h
    exact .inl ⟨f, items, rfl, hitems, hout.symm⟩

/-- Rewriting what is below a node keeps its head. -/
theorem rewriteReached_head [LawfulTree α] {task : Task} {rest : List Task} {here : Location}
    {node out : α} (h : rewriteReached rewrite (task :: rest) here node = .ok out) :
    head out = head node := by
  cases task with
  | field name =>
    rcases rewriteReached_field_eq_ok h with ⟨f, child, hf, -, -, rfl⟩ | ⟨rfl, -⟩
    · exact LawfulTree.head_put_field hf child
    · rfl
  | elements selection =>
    rcases rewriteReached_elements_eq_ok h with ⟨f, items, hf, hitems, rfl⟩ | ⟨rfl, -⟩
    · exact LawfulTree.head_put_elements hf items (rewriteItems_length hitems)
    · rfl

/-- Rewriting nodes by what never fails and changes nothing changes nothing. -/
theorem rewriteReached_ok [LawfulTree α] (tasks : List Task) (here : Location) (node : α) :
    rewriteReached (fun _ node => .ok node) tasks here node = .ok node := by
  have items : ∀ rewrite : Location → α → Except ResolutionError α,
      (∀ here node, rewrite here node = .ok node) → ∀ here selection i items,
        rewriteItems rewrite here selection i items = .ok items :=
    fun rewrite hrewrite here selection i items => by
      induction items generalizing i with
      | nil => rfl
      | cons item rest ih =>
        rw [rewriteItems, ih, hrewrite]
        split <;> rfl
  induction tasks generalizing here node with
  | nil => rfl
  | cons task rest ih =>
    cases task with
    | field name =>
      rw [rewriteReached]
      rcases hf : Tree.focusField? node name with e | _ | f <;> simp only []
      split
      · rfl
      · rw [ih, Except.map, LawfulTree.put_field_self hf]
    | elements selection =>
      rw [rewriteReached]
      cases hf : Tree.focusElements? node with
      | none => rfl
      | some f =>
        simp only []
        rw [items _ ih, Except.map, LawfulTree.put_elements_self hf]

end Rewriting

/-! ## Rewriting twice -/

section Twice

variable {first second both : Location → α → Except ResolutionError α}

/-- Rewriting items twice is rewriting each of them twice, provided that the first time makes no
item null. -/
theorem rewriteItems_bind
    (keeps : ∀ {here node node'}, Tree.isNull node = false → first here node = .ok node' →
      Tree.isNull node' = false)
    (hboth : ∀ here node out, both here node = .ok out ↔
      ∃ mid, first here node = .ok mid ∧ second here mid = .ok out)
    (here : Location) (selection : Selection) (i : Nat) (items out : List α) :
    rewriteItems both here selection i items = .ok out ↔
      ∃ mid, rewriteItems first here selection i items = .ok mid ∧
        rewriteItems second here selection i mid = .ok out := by
  induction items generalizing i out with
  | nil => simp [rewriteItems]
  | cons item rest ih =>
    -- what is rewritten the first time is not null, and is rewritten the second time, too
    by_cases hc : (selection.selects i && !Tree.isNull item) = true
    · have hn : Tree.isNull item = false := by simp_all
      have hs : selection.selects i = true := by simp_all
      simp only [rewriteItems, hc, if_true, bind_eq_ok_iff, pure, Except.pure, hboth, ih]
      constructor
      · rintro ⟨item₂, ⟨item₁, h₁, h₂⟩, rest₂, ⟨rest₁, hr₁, hr₂⟩, hout⟩
        refine ⟨item₁ :: rest₁, ⟨item₁, h₁, rest₁, hr₁, rfl⟩, ?_⟩
        simp only [rewriteItems, hs, keeps hn h₁, Bool.not_false, Bool.and_self, if_true,
          bind_eq_ok_iff]
        exact ⟨item₂, h₂, rest₂, hr₂, hout⟩
      · rintro ⟨mid, ⟨item₁, h₁, rest₁, hr₁, hmid⟩, hsecond⟩
        obtain rfl : item₁ :: rest₁ = mid := by simpa using hmid
        simp only [rewriteItems, hs, keeps hn h₁, Bool.not_false, Bool.and_self, if_true,
          bind_eq_ok_iff] at hsecond
        obtain ⟨item₂, h₂, rest₂, hr₂, hout⟩ := hsecond
        exact ⟨item₂, ⟨item₁, h₁, h₂⟩, rest₂, ⟨rest₁, hr₁, hr₂⟩, hout⟩
    · simp only [rewriteItems, hc, Bool.false_eq_true, if_false, map_eq_ok_iff, ih]
      constructor
      · rintro ⟨rest₂, ⟨rest₁, hr₁, hr₂⟩, hout⟩
        refine ⟨item :: rest₁, ⟨rest₁, hr₁, rfl⟩, ?_⟩
        simp only [rewriteItems, hc, Bool.false_eq_true, if_false, map_eq_ok_iff]
        exact ⟨rest₂, hr₂, hout⟩
      · rintro ⟨mid, ⟨rest₁, hr₁, rfl⟩, hsecond⟩
        simp only [rewriteItems, hc, Bool.false_eq_true, if_false, map_eq_ok_iff] at hsecond
        obtain ⟨rest₂, hr₂, hout⟩ := hsecond
        exact ⟨rest₂, ⟨rest₁, hr₁, hr₂⟩, hout⟩

variable [LawfulTree α]

/-- Rewriting makes no node null when what it rewrites by does not. -/
theorem rewriteReached_isNull
    (keeps : ∀ {here node node'}, Tree.isNull node = false → first here node = .ok node' →
      Tree.isNull node' = false)
    {tasks : List Task} {here : Location} {node out : α} (hnull : Tree.isNull node = false)
    (h : rewriteReached first tasks here node = .ok out) : Tree.isNull out = false := by
  cases tasks with
  | nil => exact keeps hnull h
  | cons task rest => rw [LawfulTree.isNull_congr (rewriteReached_head h), hnull]

/-- Rewriting twice is rewriting once, by the one and then the other, provided that the first
time makes no node null. -/
theorem rewriteReached_bind
    (keeps : ∀ {here node node'}, Tree.isNull node = false → first here node = .ok node' →
      Tree.isNull node' = false)
    (hboth : ∀ here node out, both here node = .ok out ↔
      ∃ mid, first here node = .ok mid ∧ second here mid = .ok out)
    (tasks : List Task) (here : Location) (node out : α) :
    rewriteReached both tasks here node = .ok out ↔
      ∃ mid, rewriteReached first tasks here node = .ok mid ∧
        rewriteReached second tasks here mid = .ok out := by
  -- Induction on the tasks; at the end of them there is one node to rewrite twice.
  induction tasks generalizing here node out with
  | nil => exact hboth here node out
  | cons task rest ih =>
    cases task with
    | field name =>
      rcases hf : Tree.focusField? node name with e | _ | f
      · simp [rewriteReached, hf]
      · simp [rewriteReached, hf]
      · cases hn : Tree.isNull f.part with
        | true => simp [rewriteReached, hf, hn]
        | false =>
          simp only [rewriteReached, hf, hn, Bool.false_eq_true, if_false, map_eq_ok_iff, ih]
          constructor
          · rintro ⟨child₂, ⟨child₁, h₁, h₂⟩, hout⟩
            refine ⟨f.put child₁, ⟨child₁, h₁, rfl⟩, ?_⟩
            rw [LawfulTree.focusField?_put hf child₁]
            simp only [rewriteReached_isNull keeps hn h₁, Bool.false_eq_true, if_false,
              map_eq_ok_iff]
            exact ⟨child₂, h₂, hout⟩
          · rintro ⟨mid, ⟨child₁, h₁, rfl⟩, hsecond⟩
            rw [LawfulTree.focusField?_put hf child₁] at hsecond
            simp only [rewriteReached_isNull keeps hn h₁, Bool.false_eq_true, if_false,
              map_eq_ok_iff] at hsecond
            obtain ⟨child₂, h₂, hout⟩ := hsecond
            exact ⟨child₂, ⟨child₁, h₁, h₂⟩, hout⟩
    | elements selection =>
      cases hf : Tree.focusElements? node with
      | none => simp [rewriteReached, hf]
      | some f =>
        have items := rewriteItems_bind (rewriteReached_isNull keeps) ih here selection 0 f.part
        simp only [rewriteReached, hf, map_eq_ok_iff, items]
        constructor
        · rintro ⟨items₂, ⟨items₁, h₁, h₂⟩, hout⟩
          refine ⟨f.put items₁, ⟨items₁, h₁, rfl⟩, ?_⟩
          simp only [LawfulTree.focusElements?_put hf items₁, map_eq_ok_iff]
          exact ⟨items₂, h₂, hout⟩
        · rintro ⟨mid, ⟨items₁, h₁, rfl⟩, hsecond⟩
          simp only [LawfulTree.focusElements?_put hf items₁, map_eq_ok_iff] at hsecond
          obtain ⟨items₂, h₂, hout⟩ := hsecond
          exact ⟨items₂, ⟨items₁, h₁, h₂⟩, hout⟩

end Twice

/-! ## Level by level is branch by branch -/

section Levels

variable [LawfulTree α] (replacements : Replacements α)

/-- What was written can be followed further: it is not null. -/
theorem Task.isNull_of_write {task : Task} {here : Location} {node out : α}
    (h : task.write replacements here node = .ok out) : Tree.isNull out = false := by
  by_contra hn
  rw [Bool.not_eq_false] at hn
  cases task with
  | field name =>
    obtain ⟨-, focus, hf⟩ := write_field_eq_ok_iff.mp h
    obtain ⟨e, he⟩ : ∃ e, Tree.field? out name = .error e := LawfulTree.field?_of_isNull hn
    rw [LawfulTree.field?_eq, hf] at he
    cases he
  | elements selection =>
    obtain ⟨items, f, -, -, hf, -⟩ := write_elements_eq_ok_iff.mp h
    have hnone := LawfulTree.elements?_of_isNull hn
    rw [elements?_of_focusElements? hf] at hnone
    cases hnone

/-- Writing at the levels of some tasks succeeds when writing them branch by branch below every
node that is reached does, with the same record. -/
theorem writeLevels_eq_ok_iff (done tasks : List Task) (root out : α) :
    writeLevels replacements done tasks root = .ok out ↔
      rewriteReached (writeBelow replacements tasks) done Location.root root = .ok out := by
  induction tasks generalizing done root with
  | nil =>
    have unchanged : writeBelow replacements [] = fun _ (node : α) => .ok node := rfl
    rw [writeLevels, unchanged, rewriteReached_ok]
  | cons task rest ih =>
    have step : rewriteReached (writeBelow replacements (task :: rest)) done Location.root root
          = .ok out ↔
        ∃ mid, rewriteReached (task.write replacements) done Location.root root = .ok mid ∧
          rewriteReached (rewriteReached (writeBelow replacements rest) [task]) done
            Location.root mid = .ok out :=
      rewriteReached_bind (fun _ h => Task.isNull_of_write replacements h)
        (fun here node out => by rw [writeBelow]; exact bind_eq_ok_iff)
        done Location.root root out
    rw [step, writeLevels, bind_eq_ok_iff]
    simp only [ih, rewriteReached_append]

/-- When writing along a plan succeeds, and with which record. -/
theorem Plan.write_eq_ok_iff (plan : Plan) (root out : α) :
    plan.write root replacements = .ok out ↔
      if replacements.isEmpty then out = root
      else if plan.tasks = [] then out = (replacements.get? Location.root.text).getD root
      else writeBelow replacements plan.tasks Location.root root = .ok out := by
  rw [Plan.write]
  by_cases hempty : replacements.isEmpty
  · simp [hempty, eq_comm]
  · by_cases htasks : plan.tasks = []
    · simp [hempty, htasks, eq_comm]
    · have hne : plan.tasks.isEmpty = false := by simpa using htasks
      simp only [hempty, htasks, hne, if_false, Bool.false_eq_true, writeLevels_eq_ok_iff]
      rfl

end Levels

end RecordCipher
