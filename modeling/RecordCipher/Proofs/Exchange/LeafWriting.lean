import RecordCipher.Proofs.Exchange.Alike
import RecordCipher.Proofs.Plan.Frame
import RecordCipher.Proofs.Plan.ReadBack

/-!
# Writing leaves in place of leaves

A reply of the service puts leaves in place of leaves that were read along the same plan. Such
a write keeps the record alike: when it succeeds, all the leaves are of the kinds they take the
place of, since typed records admit no others. And it does succeed when they are. No other node
is touched, whatever else is written between reading and writing, as long as that keeps the
record alike, too.

## Main definitions

* `Answers`: the replacements are leaves, for leaves that the tasks lead to
* `Fitting`: the replacements are of the kinds they take the place of

## Main results

* `writeBelow_alike`, `exists_writeBelow`: such a write keeps the record alike, and it succeeds
* `Plan.write_alike`, `Plan.exists_write`, `Plan.headAt_write_answers`: the same for a plan,
  and what the record is then
-/

namespace RecordCipher

variable {α : Type} [Leaf α]

/-- Replacements by leaves, for leaves that tasks lead to below a node. -/
def Answers (replacements : Replacements α) (tasks : List Task) (here : Location) (node : α) :
    Prop :=
  ∀ l value, l ≠ [] → Along tasks l → replacements.get? (here ++ l).text = some value →
    isLeaf value = true ∧ ∃ leaf, Reaches tasks node l leaf ∧ isLeaf leaf = true

/-- Replacements of the kinds of what they take the place of. -/
def Fitting (replacements : Replacements α) (tasks : List Task) (here : Location) (node : α) :
    Prop :=
  ∀ l value leaf, replacements.get? (here ++ l).text = some value → Reaches tasks node l leaf →
    Tree.kind value = Tree.kind leaf

section Answers

variable {replacements : Replacements α} {task : Task} {rest tasks : List Task}
  {here : Location} {node node' child : α} {step : Location.Step}

/-- What a task writes at a node are leaves for leaves. -/
theorem Answers.first (h : Answers replacements (task :: rest) here node) {value : α}
    (hsel : task.selects step = true)
    (hget : replacements.get? (here ++ [step]).text = some value) :
    isLeaf value = true ∧ ∃ leaf, Tree.child? node step = .ok (some leaf) ∧
      isLeaf leaf = true ∧ Reaches (task :: rest) node [step] leaf := by
  obtain ⟨hleaf, leaf, hreach, hleaf'⟩ :=
    h [step] value (by simp) ⟨hsel, by cases rest <;> trivial⟩ hget
  refine ⟨hleaf, leaf, ?_, hleaf', hreach⟩
  simpa using hreach.nodeAt?

theorem Answers.below (h : Answers replacements (task :: rest) here node)
    (hsel : task.selects step = true) (hchild : Tree.child? node step = .ok (some child)) :
    Answers replacements rest (here ++ [step]) child := by
  intro l value _ halong hget
  obtain ⟨hleaf, leaf, ⟨-, child', hchild', -, hreach⟩, hleaf'⟩ :=
    h (step :: l) value (by simp) ⟨hsel, halong⟩ (by simpa using hget)
  rw [hchild] at hchild'
  obtain rfl : child = child' := by simpa using hchild'
  exact ⟨hleaf, leaf, hreach, hleaf'⟩

theorem Fitting.below (h : Fitting replacements (task :: rest) here node)
    (hsel : task.selects step = true) (hchild : Tree.child? node step = .ok (some child))
    (hnull : Tree.isNull child = false) :
    Fitting replacements rest (here ++ [step]) child := by
  intro l value leaf hget hreach
  exact h (step :: l) value leaf (by simpa using hget) ⟨hsel, child, hchild, hnull, hreach⟩

variable [LawfulLeaf α]

theorem Answers.congr (h : Answers replacements tasks here node) (halike : Alike node node') :
    Answers replacements tasks here node' := by
  intro l value hl halong hget
  obtain ⟨hleaf, leaf, hreach, hleaf'⟩ := h l value hl halong hget
  obtain ⟨leaf', hreach', hlike⟩ := halike.reaches hreach
  exact ⟨hleaf, leaf', hreach', by rw [← hlike.isLeaf_eq, hleaf']⟩

theorem Fitting.congr (h : Fitting replacements tasks here node) (halike : Alike node node') :
    Fitting replacements tasks here node' := by
  intro l value leaf' hget hreach'
  obtain ⟨leaf, hreach, hlike⟩ := halike.symm.reaches hreach'
  rw [h l value leaf hget hreach, hlike.kind_eq]

theorem Answers.onlyReached (h : Answers replacements tasks here node) :
    OnlyReached replacements tasks here node := by
  intro l value hl halong hget
  obtain ⟨hleaf, leaf, hreach, -⟩ := h l value hl halong hget
  exact ⟨LawfulLeaf.isNull_leaf hleaf, leaf, hreach⟩

end Answers

variable [LawfulLeaf α]

/-! ## One node -/

/-- A node stays alike when a node below it is replaced by one that is alike. -/
theorem Replaced.alike {node node' old new : α} {step : Location.Step}
    (h : Replaced node step new node') (hold : Tree.child? node step = .ok (some old))
    (halike : Alike new old) : Alike node' node := by
  intro l
  cases l with
  | nil => rw [outlineAt_nil, outlineAt_nil, outline_congr h.head_eq]
  | cons other below =>
    rw [outlineAt_cons, outlineAt_cons]
    -- at the step that was set the nodes are alike, at every other one they are the same
    by_cases hstep : other = step
    · rw [hstep, h.child?_self, hold]
      exact halike below
    · rw [h.child?_of_ne other hstep]

/-- Setting a leaf in place of a leaf keeps a typed record alike. -/
theorem alike_of_setChild {node node' old new : α} {step : Location.Step} (hs : Sound node)
    (ht : Typed node) (hold : Tree.child? node step = .ok (some old))
    (hleaf : isLeaf old = true) (hleaf' : isLeaf new = true)
    (h : Tree.setChild node step new = .ok () node') : Alike node' node := by
  have hkind := (LawfulLeaf.setChild_leaf_iff ht hold hleaf hleaf').mp ⟨node', h⟩
  exact (LawfulTree.replaced_setChild hs h).alike hold (Alike.of_leaves hleaf' hleaf hkind)

section OneNode

variable {replacements : Replacements α} {here : Location}

/-- At each of some positions there is a leaf, which is replaced by a leaf, if at all. -/
def AnswersAt (replacements : Replacements α) (here : Location) (positions : List Nat)
    (node : α) : Prop :=
  ∀ i ∈ positions, ∀ value, replacements.get? (here.index i).text = some value →
    isLeaf value = true ∧ ∃ leaf, Tree.child? node (.index i) = .ok (some leaf) ∧
      isLeaf leaf = true

omit [LawfulLeaf α] in
theorem AnswersAt.tail {i : Nat} {rest : List Nat} {node : α}
    (h : AnswersAt replacements here (i :: rest) node) :
    AnswersAt replacements here rest node :=
  fun j hj => h j (List.mem_cons_of_mem i hj)

theorem AnswersAt.congr {positions : List Nat} {node node' : α}
    (h : AnswersAt replacements here positions node) (halike : Alike node node') :
    AnswersAt replacements here positions node' := by
  intro i hi value hget
  obtain ⟨hleaf, leaf, hchild, hleaf'⟩ := h i hi value hget
  obtain ⟨leaf', hchild', hlike⟩ := halike.child hchild
  exact ⟨hleaf, leaf', hchild', by rw [← hlike.isLeaf_eq, hleaf']⟩

theorem setReplacedElements_alike {positions : List Nat} {node out : α} (hs : Sound node)
    (ht : Typed node) (hans : AnswersAt replacements here positions node)
    (h : setReplacedElements replacements here positions node = .ok out) : Alike out node := by
  -- Induction on the positions: each element that is set leaves the node alike.
  induction positions generalizing node with
  | nil =>
    obtain rfl : node = out := by simpa [setReplacedElements] using h
    exact Alike.refl node
  | cons i rest ih =>
    rw [setReplacedElements] at h
    split at h
    · exact ih hs ht hans.tail h
    · next value hget =>
      obtain ⟨hleaf, leaf, hchild, hleaf'⟩ := hans i List.mem_cons_self value hget
      split at h
      · next written hset =>
        have hset : Tree.setChild node (.index i) value = .ok () written :=
          Outcome.ofCopy_eq_ok_iff.mp hset
        have halike := alike_of_setChild hs ht hchild hleaf' hleaf hset
        have hs' := LawfulTree.sound_setChild hs (LawfulLeaf.sound_leaf hleaf) hset
        have ht' := LawfulLeaf.typed_congr halike.symm ht
        exact (ih hs' ht' (hans.tail.congr halike.symm) h).trans halike
      · cases h

theorem exists_setReplacedElements {positions : List Nat} {node : α} (hs : Sound node)
    (ht : Typed node) (hans : AnswersAt replacements here positions node)
    (hkind : ∀ i ∈ positions, ∀ value leaf,
      replacements.get? (here.index i).text = some value →
        Tree.child? node (.index i) = .ok (some leaf) → Tree.kind value = Tree.kind leaf) :
    ∃ out, setReplacedElements replacements here positions node = .ok out := by
  -- Induction on the positions. What is set keeps the node alike, and so the kinds of the rest.
  induction positions generalizing node with
  | nil => exact ⟨node, rfl⟩
  | cons i rest ih =>
    have hkind' : ∀ j ∈ rest, ∀ value leaf,
        replacements.get? (here.index j).text = some value →
          Tree.child? node (.index j) = .ok (some leaf) → Tree.kind value = Tree.kind leaf :=
      fun j hj => hkind j (List.mem_cons_of_mem i hj)
    rw [setReplacedElements]
    cases hget : replacements.get? (here.index i).text with
    | none => exact ih hs ht hans.tail hkind'
    | some value =>
      obtain ⟨hleaf, leaf, hchild, hleaf'⟩ := hans i List.mem_cons_self value hget
      have hfits := hkind i List.mem_cons_self value leaf hget hchild
      obtain ⟨written, hset⟩ :=
        (LawfulLeaf.setChild_leaf_iff ht hchild hleaf' hleaf).mpr hfits
      have halike := alike_of_setChild hs ht hchild hleaf' hleaf hset
      have hs' := LawfulTree.sound_setChild hs (LawfulLeaf.sound_leaf hleaf) hset
      have ht' := LawfulLeaf.typed_congr halike.symm ht
      have hset : (Tree.setElement node i value).ofCopy = .ok written :=
        Outcome.ofCopy_eq_ok_iff.mpr hset
      simp only [hset]
      apply ih hs' ht' (hans.tail.congr halike.symm)
      intro j hj value' leaf' hget' hchild'
      obtain ⟨old, hold, hlike⟩ := halike.child hchild'
      rw [hkind' j hj value' old hget' hold, hlike.kind_eq]

variable {task : Task} {rest : List Task} {node out : α}

omit [LawfulLeaf α] in
/-- Below the elements that a task selects, leaves are replaced by leaves. -/
theorem Answers.at_positions {selection : Selection}
    (h : Answers replacements (.elements selection :: rest) here node) (length : Nat) :
    AnswersAt replacements here (selection.positions length) node := by
  intro i hi value hget
  have hsel : (Task.elements selection).selects (.index i) = true :=
    ((Selection.mem_positions selection length i).mp hi).1
  obtain ⟨hleaf, leaf, hchild, hleaf', -⟩ := h.first hsel hget
  exact ⟨hleaf, leaf, hchild, hleaf'⟩

theorem Task.write_alike (hs : Sound node) (ht : Typed node)
    (hans : Answers replacements (task :: rest) here node)
    (h : task.write replacements here node = .ok out) : Alike out node := by
  cases task with
  | field name =>
    obtain ⟨hset, -⟩ := write_field_eq_ok_iff.mp h
    rcases setReplacedField_spec hset with ⟨-, rfl⟩ | ⟨value, hget, hset⟩
    · exact Alike.refl out
    · obtain ⟨hleaf, leaf, hchild, hleaf', -⟩ := hans.first (by simp [selects]) hget
      exact alike_of_setChild hs ht hchild hleaf' hleaf hset
  | elements selection =>
    obtain ⟨items, -, -, hset, -⟩ := write_elements_eq_ok_iff.mp h
    exact setReplacedElements_alike hs ht (hans.at_positions items.length) hset

theorem exists_setReplacedField {name : String} (hs : Sound node) (ht : Typed node)
    (hans : Answers replacements (.field name :: rest) here node)
    (hfitting : Fitting replacements (.field name :: rest) here node) :
    ∃ written, setReplacedField replacements here name node = .ok written ∧
      Alike written node := by
  rw [setReplacedField]
  cases hget : replacements.get? (here.field name).text with
  | none => exact ⟨node, rfl, Alike.refl node⟩
  | some value =>
    obtain ⟨hleaf, leaf, hold, hleaf', hreach⟩ := hans.first (by simp [Task.selects]) hget
    have hkind := hfitting [.field name] value leaf hget hreach
    obtain ⟨written, hset⟩ := (LawfulLeaf.setChild_leaf_iff ht hold hleaf' hleaf).mpr hkind
    have halike := alike_of_setChild hs ht hold hleaf' hleaf hset
    have hset : (Tree.setField node name value).ofCopy = .ok written :=
      Outcome.ofCopy_eq_ok_iff.mpr hset
    exact ⟨written, by simp [hset], halike⟩

/-- A task writes without failure what is of the kinds it takes the place of: it still fits. -/
theorem Task.exists_write (hs : Sound node) (ht : Typed node) (hfits : task.Fits node)
    (hans : Answers replacements (task :: rest) here node)
    (hfitting : Fitting replacements (task :: rest) here node) :
    ∃ out, task.write replacements here node = .ok out := by
  cases task with
  | field name =>
    obtain ⟨written, hset, halike⟩ := exists_setReplacedField hs ht hans hfitting
    have hfocus := fits_field_iff.mp (halike.symm.fits hfits)
    exact ⟨written, write_field_eq_ok_iff.mpr ⟨hset, hfocus⟩⟩
  | elements selection =>
    have ⟨items, helems, _⟩ := hfits
    have hansAt := hans.at_positions items.length
    obtain ⟨written, hset⟩ : ∃ written,
        setReplacedElements replacements here (selection.positions items.length) node =
          .ok written := by
      apply exists_setReplacedElements hs ht hansAt
      intro i hi value leaf hget hchild
      have hsel : (Task.elements selection).selects (.index i) = true :=
        ((Selection.mem_positions selection items.length i).mp hi).1
      obtain ⟨-, leaf', hchild', -, hreach⟩ := hans.first hsel hget
      rw [hchild] at hchild'
      obtain rfl : leaf = leaf' := by simpa using hchild'
      exact hfitting [.index i] value leaf hget hreach
    have halike := setReplacedElements_alike hs ht hansAt hset
    obtain ⟨focus, hfocus, hcheck⟩ := (fits_elements_iff here).mp (halike.symm.fits hfits)
    exact ⟨written, write_elements_eq_ok_iff.mpr ⟨items, focus, helems, hset, hfocus, hcheck⟩⟩

end OneNode

/-! ## All nodes that tasks lead to -/

section AllNodes

variable {replacements : Replacements α} {tasks : List Task} {here : Location} {node out : α}

/-- Writing leaves for leaves keeps a typed record alike. -/
theorem writeBelow_alike (hR : replacements.AllSound) (hs : Sound node) (ht : Typed node)
    (hans : Answers replacements tasks here node)
    (h : writeBelow replacements tasks here node = .ok out) : Alike out node := by
  induction tasks generalizing here node out with
  | nil =>
    obtain rfl : node = out := by simpa [writeBelow] using h
    exact Alike.refl node
  | cons task rest ih =>
    obtain ⟨written, hwrite, hrewrite⟩ := bind_eq_ok_iff.mp h
    have first := Task.write_spec hR hs hwrite
    have halike := Task.write_alike hs ht hans hwrite
    have ht' := LawfulLeaf.typed_congr halike.symm ht
    have hans' := hans.congr halike.symm
    have others := Task.rewritten_of_ok first.sound hrewrite
    refine Alike.trans ?_ halike
    intro l
    cases l with
    | nil => rw [outlineAt_nil, outlineAt_nil, outline_congr others.head_eq]
    | cons step below =>
      rw [outlineAt_cons, outlineAt_cons]
      by_cases hreached : ∃ child, task.selects step = true ∧
          Tree.child? written step = .ok (some child) ∧ Tree.isNull child = false
      · obtain ⟨child, hsel, hchild, hnull⟩ := hreached
        obtain ⟨child', hchild', hout⟩ := others.child?_of_rewritten step child hsel hchild hnull
        rw [hchild, hout]
        exact ih (LawfulTree.sound_child first.sound hchild)
          (LawfulLeaf.typed_child ht' hchild) (hans'.below hsel hchild) hchild' below
      · rw [others.child?_of_not_rewritten step]
        intro child hsel hchild
        by_contra hnull
        exact hreached ⟨child, hsel, hchild, by simpa using hnull⟩

/-- Writing leaves for leaves of the same kinds succeeds where the tasks can be followed. -/
theorem exists_writeBelow (hR : replacements.AllSound) (hs : Sound node) (ht : Typed node)
    (hread : Readable tasks node) (hans : Answers replacements tasks here node)
    (hfitting : Fitting replacements tasks here node) :
    ∃ out, writeBelow replacements tasks here node = .ok out := by
  induction tasks generalizing here node with
  | nil => exact ⟨node, rfl⟩
  | cons task rest ih =>
    obtain ⟨written, hwrite⟩ := Task.exists_write hs ht hread.1 hans hfitting
    have halike := (Task.write_alike hs ht hans hwrite).symm
    have hs' := (Task.write_spec hR hs hwrite).sound
    have ht' := LawfulLeaf.typed_congr halike ht
    have hread' := halike.readable hread
    obtain ⟨out, hout⟩ : ∃ out,
        rewriteReached (writeBelow replacements rest) [task] here written = .ok out := by
      apply exists_rewriteReached
      intro step child hsel hchild hnull
      exact ih (LawfulTree.sound_child hs' hchild) (LawfulLeaf.typed_child ht' hchild)
        (hread'.2 step child hsel hchild hnull) ((hans.congr halike).below hsel hchild)
        ((hfitting.congr halike).below hsel hchild hnull)
    exact ⟨out, bind_eq_ok_iff.mpr ⟨written, hwrite, hout⟩⟩

end AllNodes

/-! ## Plans -/

/-- A reply along a plan: leaves, for leaves that the plan leads to. -/
def Plan.Answered (plan : Plan) (replacements : Replacements α) (node : α) : Prop :=
  ∀ path value, replacements.get? path = some value → isLeaf value = true ∧
    ∃ l leaf, l.text = path ∧ Reaches plan.tasks node l leaf ∧ isLeaf leaf = true

/-- A node that, if it is a leaf at all, is of the kind that all leaves are of. -/
def RootUniform (node : α) : Prop :=
  ∀ leaf : α, isLeaf node = true → isLeaf leaf = true → Tree.kind leaf = Tree.kind node

theorem RootUniform.congr {node node' : α} (h : RootUniform node) (halike : Alike node node') :
    RootUniform node' := by
  intro leaf hleaf hleaf'
  rw [h leaf (by rw [halike.isLeaf_eq, hleaf]) hleaf', halike.kind_eq]

namespace Plan

variable {plan : Plan} {replacements : Replacements α} {node node' out : α}

omit [LawfulLeaf α] in
/-- A replacement is for the location along the plan that has its text. -/
theorem Answered.of_along (h : plan.Answered replacements node) {l : Location} {value : α}
    (halong : Along plan.tasks l) (hget : replacements.get? l.text = some value) :
    isLeaf value = true ∧ ∃ leaf, Reaches plan.tasks node l leaf ∧ isLeaf leaf = true := by
  obtain ⟨hleaf, l', leaf, htext, hreach, hleaf'⟩ := h _ _ hget
  obtain rfl := hreach.along.text_injective halong htext
  exact ⟨hleaf, leaf, hreach, hleaf'⟩

omit [LawfulLeaf α] in
theorem Answered.answers (h : plan.Answered replacements node) :
    Answers replacements plan.tasks Location.root node :=
  fun _ _ _ halong hget => h.of_along halong hget

theorem Answered.congr (h : plan.Answered replacements node) (halike : Alike node node') :
    plan.Answered replacements node' := by
  intro path value hget
  obtain ⟨hleaf, l, leaf, htext, hreach, hleaf'⟩ := h path value hget
  obtain ⟨leaf', hreach', hlike⟩ := halike.reaches hreach
  exact ⟨hleaf, l, leaf', htext, hreach', by rw [← hlike.isLeaf_eq, hleaf']⟩

theorem Answered.allSound (h : plan.Answered replacements node) : replacements.AllSound :=
  fun path value hget => LawfulLeaf.sound_leaf (h path value hget).1

/-- The locations written by a reply are those that it has leaves for. -/
theorem Answered.writes_iff (h : plan.Answered replacements node) (l : Location) (value : α) :
    plan.Writes node replacements l value ↔
      (∃ leaf, Reaches plan.tasks node l leaf) ∧ replacements.get? l.text = some value := by
  constructor
  · rintro ⟨hlooks, hget⟩
    refine ⟨?_, hget⟩
    have halong : Along plan.tasks l := by
      cases htasks : plan.tasks with
      | nil =>
        obtain rfl : l = Location.root := by simpa [LooksUp, htasks] using hlooks
        trivial
      | cons task rest =>
        simp only [LooksUp, htasks] at hlooks
        exact RecordCipher.LooksUp.along hlooks
    obtain ⟨-, leaf, hreach, -⟩ := h.of_along halong hget
    exact ⟨leaf, hreach⟩
  · rintro ⟨⟨leaf, hreach⟩, hget⟩
    refine ⟨?_, hget⟩
    cases htasks : plan.tasks with
    | nil =>
      rw [htasks] at hreach
      simpa [LooksUp, htasks, Location.root] using hreach.1
    | cons task rest =>
      have hne : l ≠ [] := by
        rintro rfl
        rw [htasks] at hreach
        exact hreach.elim
      have hlooks := RecordCipher.LooksUp.of_reaches h.answers.onlyReached hreach hne
      simpa [LooksUp, htasks] using hlooks

/-- A reply keeps a typed record alike. -/
theorem write_alike (hs : Sound node) (ht : Typed node) (hroot : RootUniform node)
    (hans : plan.Answered replacements node) (h : plan.write node replacements = .ok out) :
    Alike out node := by
  rw [write_eq_ok_iff] at h
  split at h
  · rw [h]
    exact Alike.refl node
  · split at h
    · next htasks =>
      subst h
      cases hget : replacements.get? Location.root.text with
      | none => exact Alike.refl node
      | some value =>
        obtain ⟨hleaf, leaf, hreach, hleaf'⟩ :=
          hans.of_along (by rw [htasks]; trivial : Along plan.tasks Location.root) hget
        rw [htasks] at hreach
        obtain rfl := hreach.2
        exact Alike.of_leaves hleaf hleaf' (hroot value hleaf' hleaf)
    · exact writeBelow_alike hans.allSound hs ht hans.answers h

/-- A reply with leaves of the kinds they take the place of is written without failure. -/
theorem exists_write (hs : Sound node) (ht : Typed node) (hread : Readable plan.tasks node)
    (hans : plan.Answered replacements node)
    (hfitting : ∀ l value leaf, replacements.get? l.text = some value →
      Reaches plan.tasks node l leaf → Tree.kind value = Tree.kind leaf) :
    ∃ out, plan.write node replacements = .ok out := by
  simp only [write_eq_ok_iff]
  split
  · exact ⟨node, rfl⟩
  · split
    · exact ⟨_, rfl⟩
    · exact exists_writeBelow hans.allSound hs ht hread hans.answers hfitting

/-- What a record is after a reply was written: the leaves that the plan leads to and that the
reply has leaves for are those of the reply, and everything else is as it was. -/
theorem headAt_write_answers (hs : Sound node) (ht : Typed node) (hroot : RootUniform node)
    (hans : plan.Answered replacements node) (h : plan.write node replacements = .ok out)
    (l : Location) :
    (∀ leaf value, Reaches plan.tasks node l leaf → replacements.get? l.text = some value →
      headAt l out = .ok (some (head value))) ∧
    ((∀ leaf value, Reaches plan.tasks node l leaf → replacements.get? l.text ≠ some value) →
      headAt l out = headAt l node) := by
  have hR := hans.allSound
  have halike := write_alike hs ht hroot hans h
  -- no location written is above another one: they all are as deep as the plan
  have last : ∀ w below, (∃ value, plan.Writes node replacements w value) →
      ∀ w' value', plan.Writes node replacements w' value' → w <+: w' → w' <+: w ++ below →
        w' = w := by
    rintro w below ⟨value, hw⟩ w' value' hw' hbefore -
    obtain ⟨⟨leaf, hreach⟩, -⟩ := (hans.writes_iff w value).mp hw
    obtain ⟨⟨leaf', hreach'⟩, -⟩ := (hans.writes_iff w' value').mp hw'
    exact (hbefore.eq_of_length (by rw [hreach.length_eq, hreach'.length_eq])).symm
  constructor
  · intro leaf value hreach hget
    have hw := (hans.writes_iff l value).mpr ⟨⟨leaf, hreach⟩, hget⟩
    simpa using headAt_write_of_writes hR hs h hw (last l [] ⟨value, hw⟩)
  · intro hfree
    by_cases habove : ∃ w value, plan.Writes node replacements w value ∧ w <+: l
    · obtain ⟨w, value, hw, below, rfl⟩ := habove
      obtain ⟨⟨leaf, hreach⟩, hget⟩ := (hans.writes_iff w value).mp hw
      obtain ⟨hleaf, leaf', hreach', hleaf'⟩ := hans.of_along hreach.along hget
      obtain rfl := hreach.unique hreach'
      cases below with
      | nil =>
        rw [List.append_nil] at hfree
        exact absurd hget (hfree leaf value hreach)
      | cons step below =>
        -- below a leaf there is nothing, whatever its value
        have hvalue := headAt_write_of_writes hR hs h hw (last w (step :: below) ⟨value, hw⟩)
        have hwritten := headAt_write_of_writes hR hs h hw (last w [] ⟨value, hw⟩)
        rw [List.append_nil, headAt_nil] at hwritten
        have houtline : outlineAt [] value = outlineAt w node := by
          rw [← halike w]
          exact outlineAt_congr (by rw [hwritten, headAt_nil])
        have hkind : Tree.kind value = Tree.kind leaf := by
          simpa [outlineAt, hreach.nodeAt?, Except.map, outline, hleaf, hleaf'] using houtline
        have hnode : headAt (w ++ step :: below) node = headAt (step :: below) leaf := by
          rw [headAt, nodeAt?_append hreach.nodeAt?, headAt]
        rw [hvalue, hnode]
        exact headAt_cons_congr (LawfulLeaf.child?_leaf hleaf hleaf' hkind step) below
    · apply headAt_write hR hs h
      intro w value hw hbefore
      exact habove ⟨w, value, hw, hbefore⟩

end Plan

end RecordCipher
