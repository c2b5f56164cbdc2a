import RecordCipher.Proofs.Plan.Agreement
import RecordCipher.Proofs.Plan.Idempotence

/-!
# Writing one after the other

Two maps of replacements that are written one after the other come to the same as one map, in
which the second counts where both have a replacement. This is so as long as the second has none
for the nodes that a plan only passes through. Such a replacement would throw away what the first
run has written below it, and the one run would write it again.

At the last task the two runs set values twice, and the one run sets them once. A field takes a
value for the head of its node, whatever it holds. An element takes a value in view of what stands
there: the first run compares its replacement with the element, the second run compares its own
with the replacement of the first, and the one run compares that with the element. It passes,
because values that can take each other's place do so across a third one.

## Main definitions

* `YieldingTree`: nodes whose elements yield to values, or do not
* `FindYielding`: every replacement for an element finds one that yields to it
* `Plan.PassesThrough`: the texts of the locations on the way to the end of a plan

## Main results

* `exists_setReplacedElements_iff`: when replacements for elements can be set
* `Task.write_overriddenBy`, `writeBelow_overriddenBy`: writing twice by one task, and by several
* `Plan.write_composes`: writing twice along a plan, in both flavors
-/

namespace RecordCipher

/-! ## Elements that yield -/

/-- Nodes whose elements yield to some values and not to others: to these they can be set, whatever
else is in the node. What an element yields to by way of another value it yields to at once. -/
class YieldingTree (α : Type) [Tree α] [LawfulTree α] extends SteadyTree α where
  /-- An element yields to a value. -/
  Yields : α → α → Prop
  yields_trans : ∀ {a b c : α}, Yields a b → Yields b c → Yields a c
  exists_setElement_iff : ∀ {node value : α} {i : Nat},
    (∃ node', Tree.setElement node i value = .ok () node') ↔
      ∃ current, Tree.element? node i = some current ∧ Yields current value

export YieldingTree (Yields)

/-- The elements of a document yield to everything. -/
instance : YieldingTree Json where
  Yields _ _ := True
  yields_trans _ _ := trivial
  exists_setElement_iff {node value i} := by
    constructor
    · rintro ⟨node', hset⟩
      obtain ⟨items, rfl, hlt, -⟩ := Json.setElement_eq_ok hset
      exact ⟨items[i], List.getElem?_eq_getElem hlt, trivial⟩
    · rintro ⟨current, hget, -⟩
      cases node with
      | array items => exact ⟨_, Json.setElement_of_lt (List.getElem?_eq_some_iff.mp hget).1 value⟩
      | _ => cases hget

/-- The elements of a structured array yield to values of their type, and of their schema. -/
instance : YieldingTree Datum where
  Yields current value := Datum.checkReplacement current value = .ok ()
  yields_trans {a b c} hab hbc := by
    rw [Datum.checkReplacement_eq_ok_iff] at hab hbc ⊢
    exact ⟨hbc.1.trans hab.1, hbc.2.trans hab.2⟩
  exists_setElement_iff {node value i} := by
    constructor
    · rintro ⟨node', hset⟩
      obtain ⟨items, current, rfl, hget, hcheck, -⟩ := Datum.setElement_eq_ok hset
      exact ⟨current, hget, hcheck⟩
    · rintro ⟨current, hget, hcheck⟩
      exact Datum.exists_setElement hget hcheck

section

variable {α : Type} [Tree α] [LawfulTree α] {first second replacements : Replacements α}
  {task : Task} {tasks : List Task} {here : Location} {node mid out : α}

theorem Replacements.AllSound.overriddenBy (h : first.AllSound) (h' : second.AllSound) :
    Replacements.AllSound (first.overriddenBy second) := by
  intro path value hget
  rw [SortedMap.get?_overriddenBy, Option.or_eq_some_iff] at hget
  rcases hget with hget | ⟨-, hget⟩
  · exact h' path value hget
  · exact h path value hget

/-! ## One field -/

/-- A part that is replaced twice is replaced once. -/
theorem Replaced.trans {step : Location.Step} {value value' : α}
    (h : Replaced node step value mid) (h' : Replaced mid step value' out) :
    Replaced node step value' out where
  head_eq := h'.head_eq.trans h.head_eq
  child?_self := h'.child?_self
  child?_of_ne other hne := (h'.child?_of_ne other hne).trans (h.child?_of_ne other hne)

theorem Replaced.unique {step : Location.Step} {value : α} (hout : Sound out) (hmid : Sound mid)
    (h : Replaced node step value out) (h' : Replaced node step value mid) : out = mid := by
  refine eq_of_child? hout hmid (h.head_eq.trans h'.head_eq.symm) fun other => ?_
  by_cases hother : other = step
  · rw [hother, h.child?_self, h'.child?_self]
  · rw [h.child?_of_ne other hother, h'.child?_of_ne other hother]

/-- A field that is set twice is set to the second value. -/
theorem setField_setField [SteadyTree α] {name : String} {value value' : α} (hs : Sound node)
    (hvalue : Sound value) (hvalue' : Sound value')
    (h : Tree.setField node name value = .ok () mid)
    (h' : Tree.setField mid name value' = .ok () out) :
    Tree.setField node name value' = .ok () out := by
  have hset : Tree.setChild node (.field name) value = .ok () mid := h
  have hset' : Tree.setChild mid (.field name) value' = .ok () out := h'
  have hmid := LawfulTree.sound_setChild hs hvalue hset
  have hreplaced := LawfulTree.replaced_setChild hs hset
  obtain ⟨again, hagain⟩ := SteadyTree.setField_congr hreplaced.head_eq h'
  have honce : Tree.setChild node (.field name) value' = .ok () again := hagain
  rw [hagain, Replaced.unique (LawfulTree.sound_setChild hs hvalue' honce)
    (LawfulTree.sound_setChild hmid hvalue' hset') (LawfulTree.replaced_setChild hs honce)
    (hreplaced.trans (LawfulTree.replaced_setChild hmid hset'))]

omit [LawfulTree α] in
theorem setReplacedField_eq_ok_iff {name : String} :
    setReplacedField replacements here name node = .ok out ↔
      (replacements.get? (here.field name).text = none ∧ out = node) ∨
        ∃ value, replacements.get? (here.field name).text = some value ∧
          Tree.setField node name value = .ok () out := by
  constructor
  · exact setReplacedField_spec
  · rintro (⟨hget, rfl⟩ | ⟨value, hget, hset⟩)
    · rw [setReplacedField, hget]
    · simp only [setReplacedField, hget, hset, Outcome.ofCopy]

theorem setReplacedField_overriddenBy [SteadyTree α] {name : String} (hR : first.AllSound)
    (hR' : second.AllSound) (hs : Sound node)
    (h : setReplacedField first here name node = .ok mid)
    (h' : setReplacedField second here name mid = .ok out) :
    setReplacedField (first.overriddenBy second) here name node = .ok out := by
  rw [setReplacedField_eq_ok_iff] at h h' ⊢
  rw [SortedMap.get?_overriddenBy]
  rcases h' with ⟨hnone', rfl⟩ | ⟨value', hget', hset'⟩
  · rwa [hnone', Option.none_or]
  · refine .inr ⟨value', by rw [hget', Option.some_or], ?_⟩
    rcases h with ⟨-, rfl⟩ | ⟨value, hget, hset⟩
    · exact hset'
    · exact setField_setField hs (hR _ _ hget) (hR' _ _ hget') hset hset'

/-! ## Elements -/

/-- Every replacement for an element finds one that yields to it. -/
def FindYielding [YieldingTree α] (replacements : Replacements α) (here : Location)
    (positions : List Nat) (node : α) : Prop :=
  ∀ i ∈ positions, ∀ value, replacements.get? (here.index i).text = some value →
    ∃ current, Tree.element? node i = some current ∧ Yields current value

theorem FindYielding.congr [YieldingTree α] {positions : List Nat}
    (h : FindYielding replacements here positions node)
    (same : ∀ i ∈ positions, Tree.element? out i = Tree.element? node i) :
    FindYielding replacements here positions out := by
  intro i hi value hget
  rw [same i hi]
  exact h i hi value hget

/-- Replacements for elements can be set when each of them finds one that yields to it. -/
theorem exists_setReplacedElements_iff [YieldingTree α] (hR : replacements.AllSound)
    {positions : List Nat} (nodup : positions.Nodup) (hs : Sound node) :
    (∃ out, setReplacedElements replacements here positions node = .ok out) ↔
      FindYielding replacements here positions node := by
  -- Induction on the positions, for the node that the ones before have made.
  induction positions generalizing node with
  | nil => exact ⟨fun _ => nofun, fun _ => ⟨node, rfl⟩⟩
  | cons i rest ih =>
    obtain ⟨hi, nodup⟩ := List.nodup_cons.mp nodup
    rw [setReplacedElements, FindYielding, List.forall_mem_cons, ← FindYielding]
    cases hget : replacements.get? (here.index i).text with
    | none =>
      simp only [reduceCtorEq, false_implies, implies_true, true_and]
      exact ih nodup hs
    | some value =>
      simp only [Option.some.injEq, forall_eq']
      simp only [← YieldingTree.exists_setElement_iff, ← Outcome.ofCopy_eq_ok_iff]
      rcases hset : (Tree.setElement node i value).ofCopy with e | node'
      · simp
      · have hset' : Tree.setChild node (.index i) value = .ok () node' :=
          Outcome.ofCopy_eq_ok_iff.mp hset
        have hreplaced := LawfulTree.replaced_setChild hs hset'
        have same : ∀ j ∈ rest, Tree.element? node' j = Tree.element? node j := by
          intro j hj
          apply Except.ok.inj (hreplaced.child?_of_ne (.index j) _)
          rintro ⟨⟩
          exact hi hj
        simp only [Except.ok.injEq, exists_eq', true_and]
        rw [ih nodup (LawfulTree.sound_setChild hs (hR _ _ hget) hset')]
        constructor
        · intro h
          exact h.congr fun j hj => (same j hj).symm
        · intro h
          exact FindYielding.congr h same

/-- At the positions, the elements are the replacements, or what was there before. -/
theorem element?_of_setReplacedElements (hR : replacements.AllSound) {positions : List Nat}
    (hs : Sound node) (h : setReplacedElements replacements here positions node = .ok out) {i : Nat}
    (hi : i ∈ positions) : Tree.element? out i =
      (replacements.get? (here.index i).text).or (Tree.element? node i) := by
  obtain ⟨-, -, hsteps⟩ := setReplacedElements_spec hR hs h
  obtain ⟨hreplaced, hkept⟩ := hsteps (.index i)
  apply Except.ok.inj
  cases hget : replacements.get? (here.index i).text with
  | some value => exact hreplaced i value rfl hi hget
  | none =>
    refine hkept fun j hj _ => ?_
    cases hj
    exact hget

/-- Everything else is as it was. -/
theorem child?_of_setReplacedElements (hR : replacements.AllSound) {positions : List Nat}
    (hs : Sound node) (h : setReplacedElements replacements here positions node = .ok out)
    {step : Location.Step} (hstep : ∀ i ∈ positions, step ≠ .index i) :
    Tree.child? out step = Tree.child? node step := by
  obtain ⟨-, -, hsteps⟩ := setReplacedElements_spec hR hs h
  exact (hsteps step).2 fun i heq hi => absurd heq (hstep i hi)

/-- Elements that yield to the replacements of the first map, and then to those of the second,
yield to those of both at once. -/
theorem FindYielding.overriddenBy [YieldingTree α] {positions : List Nat} (hR : first.AllSound)
    (hs : Sound node) (h : FindYielding first here positions node)
    (hset : setReplacedElements first here positions node = .ok mid)
    (h' : FindYielding second here positions mid) :
    FindYielding (first.overriddenBy second) here positions node := by
  intro i hi value hget
  rw [SortedMap.get?_overriddenBy, Option.or_eq_some_iff] at hget
  rcases hget with hget' | ⟨-, hget⟩
  · obtain ⟨between, hbetween, hyields'⟩ := h' i hi value hget'
    rw [element?_of_setReplacedElements hR hs hset hi, Option.or_eq_some_iff] at hbetween
    rcases hbetween with hget | ⟨-, hbefore⟩
    · -- the element was replaced twice
      obtain ⟨current, hcurrent, hyields⟩ := h i hi between hget
      exact ⟨current, hcurrent, YieldingTree.yields_trans hyields hyields'⟩
    · exact ⟨between, hbefore, hyields'⟩
  · exact h i hi value hget

theorem setReplacedElements_overriddenBy [YieldingTree α] (hR : first.AllSound)
    (hR' : second.AllSound) {positions : List Nat} (nodup : positions.Nodup) (hs : Sound node)
    (h : setReplacedElements first here positions node = .ok mid)
    (h' : setReplacedElements second here positions mid = .ok out) :
    setReplacedElements (first.overriddenBy second) here positions node = .ok out := by
  have hboth := hR.overriddenBy hR'
  obtain ⟨hmid, hheads, -⟩ := setReplacedElements_spec hR hs h
  obtain ⟨hout, hheads', -⟩ := setReplacedElements_spec hR' hmid h'
  obtain ⟨once, honce⟩ := (exists_setReplacedElements_iff hboth nodup hs).mpr
    (FindYielding.overriddenBy hR hs ((exists_setReplacedElements_iff hR nodup hs).mp ⟨mid, h⟩) h
      ((exists_setReplacedElements_iff hR' nodup hmid).mp ⟨out, h'⟩))
  obtain ⟨honceSound, hhead, -⟩ := setReplacedElements_spec hboth hs honce
  rw [honce, eq_of_child? honceSound hout (hhead.trans (hheads'.trans hheads).symm) fun step => ?_]
  by_cases hstep : ∃ i ∈ positions, step = .index i
  · obtain ⟨i, hi, rfl⟩ := hstep
    apply congrArg Except.ok
    rw [element?_of_setReplacedElements hboth hs honce hi,
      element?_of_setReplacedElements hR' hmid h' hi, element?_of_setReplacedElements hR hs h hi,
      SortedMap.get?_overriddenBy, Option.or_assoc]
  · have hother : ∀ i ∈ positions, step ≠ .index i := by
      rintro i hi rfl
      exact hstep ⟨i, hi, rfl⟩
    rw [child?_of_setReplacedElements hboth hs honce hother,
      child?_of_setReplacedElements hR' hmid h' hother,
      child?_of_setReplacedElements hR hs h hother]

/-! ## One task -/

/-- What a task writes twice it writes at once. -/
theorem Task.write_overriddenBy [YieldingTree α] (hR : first.AllSound) (hR' : second.AllSound)
    (hs : Sound node) (h : task.write first here node = .ok mid)
    (h' : task.write second here mid = .ok out) :
    task.write (first.overriddenBy second) here node = .ok out := by
  have hwritten := Task.write_spec hR hs h
  cases task with
  | field name =>
    rw [write_field_eq_ok_iff] at h h' ⊢
    exact ⟨setReplacedField_overriddenBy hR hR' hs h.1 h'.1, h'.2⟩
  | elements selection =>
    obtain ⟨items, _, hitems, hset, -, -⟩ := write_elements_eq_ok_iff.mp h
    obtain ⟨items', focus, hitems', hset', hfocus, hcheck⟩ := write_elements_eq_ok_iff.mp h'
    have hlength : items'.length = items.length := by
      have hsame := LawfulTree.length?_congr hwritten.head_eq
      simpa [Tree.length?, hitems, hitems'] using hsame
    rw [hlength] at hset'
    refine write_elements_eq_ok_iff.mpr ⟨items, focus, hitems, ?_, hfocus, hcheck⟩
    exact setReplacedElements_overriddenBy hR hR' (selection.nodup_positions _) hs hset hset'

/-! ## All tasks -/

theorem writeBelow_singleton (replacements : Replacements α) (task : Task) (here : Location)
    (node : α) : writeBelow replacements [task] here node = task.write replacements here node := by
  have unchanged : writeBelow replacements [] = fun _ (node : α) => .ok node := rfl
  rw [writeBelow, unchanged]
  simp only [rewriteReached_ok]
  exact bind_pure _

/-- What was written below can be followed further. -/
theorem isNull_of_writeBelow {rest : List Task}
    (h : writeBelow replacements (task :: rest) here node = .ok out) : Tree.isNull out = false := by
  obtain ⟨written, hwrite, hrewrite⟩ := bind_eq_ok_iff.mp h
  rw [LawfulTree.isNull_congr (rewriteReached_head hrewrite)]
  exact Task.isNull_of_write replacements hwrite

/-- What is written twice along tasks is written at once, if only the last task finds a replacement
the second time. -/
theorem writeBelow_overriddenBy [YieldingTree α] (hR : first.AllSound) (hR' : second.AllSound)
    (hs : Sound node)
    (hnone : ∀ l : Location, l ≠ [] → l.length < tasks.length → Along tasks l →
      second.get? (here ++ l).text = none)
    (h : writeBelow first tasks here node = .ok mid)
    (h' : writeBelow second tasks here mid = .ok out) :
    writeBelow (first.overriddenBy second) tasks here node = .ok out := by
  -- Induction on the tasks: the others write twice below each node that the first one leads to.
  induction tasks generalizing here node mid out with
  | nil => exact (Except.ok.inj h).symm ▸ h'
  | cons task rest ih =>
    cases rest with
    | nil =>
      rw [writeBelow_singleton] at h h' ⊢
      exact Task.write_overriddenBy hR hR' hs h h'
    | cons next rest =>
      have hfirst : ∀ step, task.selects step = true → second.get? (here ++ [step]).text = none :=
        fun step hstep => hnone [step] (by simp) (by simp) ⟨hstep, trivial⟩
      obtain ⟨written, hwrite, hrewrite⟩ := bind_eq_ok_iff.mp h
      obtain ⟨written', hwrite', hrewrite'⟩ := bind_eq_ok_iff.mp h'
      obtain rfl : mid = written' := by
        rw [Task.write_unmet hfirst, map_eq_ok_iff] at hwrite'
        obtain ⟨_, -, heq⟩ := hwrite'
        exact heq
      have honce : task.write (first.overriddenBy second) here node = .ok written := by
        rw [← hwrite]
        apply Task.write_congr
        intro step hstep
        rw [SortedMap.get?_overriddenBy, hfirst step hstep.1, Option.none_or]
      refine bind_eq_ok_iff.mpr ⟨written, honce, ?_⟩
      have htwice : rewriteReached (fun here node => writeBelow first (next :: rest) here node >>=
          writeBelow second (next :: rest) here) [task] here written = .ok out :=
        (rewriteReached_bind (fun _ => isNull_of_writeBelow) (fun _ _ _ => bind_eq_ok_iff)
          [task] here written out).mpr ⟨mid, hrewrite, hrewrite'⟩
      rw [← htwice]
      have hsound := (Task.write_spec hR hs hwrite).sound
      apply rewriteReached_congr
      intro step child hstep hchild hnull
      obtain ⟨child', hchild', -⟩ :=
        (Task.rewritten_of_ok hsound htwice).child?_of_rewritten step child hstep hchild hnull
      rw [hchild']
      obtain ⟨between, hbetween, hafter⟩ := bind_eq_ok_iff.mp hchild'
      have hsound := LawfulTree.sound_child hsound hchild
      refine ih hsound (fun l hne hlength hl => ?_) hbetween hafter
      have hbelow := hnone (step :: l) (by simp) (by simpa using hlength) ⟨hstep, hl⟩
      simpa using hbelow

/-! ## Writing along a plan -/

namespace Plan

/-- The texts of the locations on the way to the end of a plan, below the root. -/
def PassesThrough (plan : Plan) (path : String) : Prop :=
  ∃ l : Location, l ≠ [] ∧ l.length < plan.tasks.length ∧ Along plan.tasks l ∧ l.text = path

variable {plan : Plan} {root : α}

omit [Tree α] [LawfulTree α] in
/-- What is at the end of all tasks is not on the way there. -/
theorem PassesThrough.not_addresses {path : String} (h : plan.PassesThrough path) :
    ¬ plan.Addresses path := by
  rintro ⟨l', hlength', hl', htext'⟩
  obtain ⟨l, -, hlength, hl, htext⟩ := h
  obtain rfl := hl.text_injective hl' (htext.trans htext'.symm)
  omega

theorem write_overriddenBy_of_yielding [YieldingTree α] (hR : first.AllSound)
    (hR' : second.AllSound) (hs : Sound root)
    (hpasses : ∀ path, plan.PassesThrough path → second.get? path = none)
    (h : plan.write root first = .ok mid) (h' : plan.write mid second = .ok out) :
    plan.write root (first.overriddenBy second) = .ok out := by
  by_cases hempty : first.isEmpty = true
  · -- nothing was written the first time
    obtain rfl : root = mid := by simpa [write, hempty] using h
    rwa [SortedMap.overriddenBy_eq_right hempty]
  by_cases hempty' : second.isEmpty = true
  · obtain rfl : mid = out := by simpa [write, hempty'] using h'
    rwa [SortedMap.overriddenBy_eq_left hempty']
  have hboth : ¬ (first.overriddenBy second).isEmpty = true := by
    rw [SortedMap.isEmpty_overriddenBy]
    exact fun hall => hempty hall.1
  rw [write_eq_ok_iff, if_neg hempty] at h
  rw [write_eq_ok_iff, if_neg hempty'] at h'
  rw [write_eq_ok_iff, if_neg hboth]
  split at h
  · next htasks =>
    -- there is only the root to replace
    rw [if_pos htasks] at h' ⊢
    rw [h', h, SortedMap.get?_overriddenBy]
    cases second.get? Location.root.text <;> rfl
  · next htasks =>
    rw [if_neg htasks] at h' ⊢
    exact writeBelow_overriddenBy hR hR' hs
      (fun l hne hlength hl => hpasses _ ⟨l, hne, hlength, hl, rfl⟩) h h'

end Plan

end

/-- Writing two maps of replacements along a plan, one after the other, is writing one map in which
the second counts where both have a replacement, unless the second has one for a node that the plan
passes through. The first may replace whatever it wants. -/
theorem Plan.write_composes (plan : Plan) :
    (∀ (root mid out : Json) (first second : Replacements Json), Sound root → first.AllSound →
      second.AllSound → (∀ path, plan.PassesThrough path → second.get? path = none) →
      plan.write root first = .ok mid → plan.write mid second = .ok out →
        plan.write root (first.overriddenBy second) = .ok out) ∧
    ∀ (root mid out : Datum) (first second : Replacements Datum), Sound root → first.AllSound →
      second.AllSound → (∀ path, plan.PassesThrough path → second.get? path = none) →
      plan.write root first = .ok mid → plan.write mid second = .ok out →
        plan.write root (first.overriddenBy second) = .ok out :=
  ⟨fun _ _ _ _ _ hs hR hR' hpasses h h' => write_overriddenBy_of_yielding hR hR' hs hpasses h h',
    fun _ _ _ _ _ hs hR hR' hpasses h h' => write_overriddenBy_of_yielding hR hR' hs hpasses h h'⟩

/-- An element is replaced, and then an absent member of the replacement is set; an element of a
structured array is replaced twice. -/
theorem Plan.write_composes_element_and_member :
    Plan.write ⟨"$.a[*].b", [.field "a", .elements .every, .field "b"]⟩
        (Json.object [("a", .array [.object [("b", .string "x")], .null])])
        (SortedMap.overriddenBy (SortedMap.ofList [("$.a[0]", .object [("c", .string "y")])])
          (SortedMap.ofList [("$.a[0].b", .string "z")])) =
      .ok (.object [("a", .array [.object [("b", .string "z"), ("c", .string "y")], .null])]) ∧
    Plan.write ⟨"$.l[*]", [.field "l", .elements .every]⟩
        (Datum.struct (.struct {} [⟨"l", 0, .array {} (.scalar .string {})⟩])
          [some (.array [.scalar (.string "x"), .scalar (.string "k")])])
        (SortedMap.overriddenBy (SortedMap.ofList [("$.l[0]", .scalar (.string "y"))])
          (SortedMap.ofList [("$.l[0]", .scalar (.string "z"))])) =
      .ok (.struct (.struct {} [⟨"l", 0, .array {} (.scalar .string {})⟩])
        [some (.array [.scalar (.string "z"), .scalar (.string "k")])]) := by
  constructor
  · refine (Plan.write_composes _).1 _
      (Json.object [("a", .array [.object [("c", .string "y")], .null])]) _ _ _ ?_ ?_ ?_ ?_ rfl rfl
    · show Json.Sound _
      simp [InKeyOrder]
    · apply Replacements.allSound_ofList
      show ∀ entry ∈ _, Json.Sound (Prod.snd entry)
      simp [InKeyOrder]
    · apply Replacements.allSound_ofList
      show ∀ entry ∈ _, Json.Sound (Prod.snd entry)
      simp
    · intro path hpath
      refine Option.eq_none_iff_forall_ne_some.mpr fun value hget => hpath.not_addresses ?_
      obtain ⟨rfl, -⟩ : path = "$.a[0].b" ∧ value = .string "z" := by
        simpa using SortedMap.mem_of_get?_ofList hget
      exact ⟨[.field "a", .index 0, .field "b"], rfl, ⟨rfl, rfl, rfl, trivial⟩, rfl⟩
  · refine (Plan.write_composes _).2 _
      (Datum.struct (.struct {} [⟨"l", 0, .array {} (.scalar .string {})⟩])
        [some (.array [.scalar (.string "y"), .scalar (.string "k")])]) _ _ _ ?_ ?_ ?_ ?_ rfl rfl
    · show Datum.Sound _
      simp [Schema.fields, Schema.fieldNames, Schema.Placed, List.range_succ]
    · apply Replacements.allSound_ofList
      show ∀ entry ∈ _, Datum.Sound (Prod.snd entry)
      simp
    · apply Replacements.allSound_ofList
      show ∀ entry ∈ _, Datum.Sound (Prod.snd entry)
      simp
    · intro path hpath
      refine Option.eq_none_iff_forall_ne_some.mpr fun value hget => hpath.not_addresses ?_
      obtain ⟨rfl, -⟩ : path = "$.l[0]" ∧ value = .scalar (.string "z") := by
        simpa using SortedMap.mem_of_get?_ofList hget
      exact ⟨[.field "l", .index 0], rfl, ⟨rfl, rfl, trivial⟩, rfl⟩

end RecordCipher
