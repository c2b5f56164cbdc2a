import RecordCipher.Proofs.Plan.Descent

/-!
# What writing does at one node

A task looks up a replacement for each node one step below that it selects: for a field whether
it is there or not, for an element only if it is. What stands there afterwards is the
replacement, or else what was there before, and unless it is null the remaining tasks go on with
it. Everything else one step below the node is as it was, and so is the head of the node.

## Main definitions

* `Task.LooksUp`: the steps below a node for which a task looks up replacements
* `settled`: what stands one step below a node after the lookup
* `Descends`: what the remaining tasks make of what stands there

## Main results

* `Task.write_spec`: a task writes the replacements it looks up, and nothing else
* `writeBelow_cons`: everything that writing along tasks does one step below a node
-/

namespace RecordCipher

variable {α : Type} [Tree α]

/-- The steps below a node for which a task looks up replacements: the step to the field,
whether it is there or not, and the steps to the selected elements that are there. -/
def Task.LooksUp (task : Task) (node : α) (step : Location.Step) : Prop :=
  task.selects step = true ∧ ∀ i, step = .index i → (Tree.element? node i).isSome = true

/-- What is there is looked up. -/
theorem Task.LooksUp.of_child? {task : Task} {node child : α} {step : Location.Step}
    (hsel : task.selects step = true) (hchild : Tree.child? node step = .ok (some child)) :
    task.LooksUp node step := by
  refine ⟨hsel, ?_⟩
  rintro i rfl
  have helem : Tree.element? node i = some child := by simpa [Tree.child?] using hchild
  rw [helem]
  rfl

/-- What a task looks up is decided by the head of the node. -/
theorem Task.LooksUp.congr [LawfulTree α] {task : Task} {a b : α} {step : Location.Step}
    (h : task.LooksUp a step) (hhead : head a = head b) : task.LooksUp b step := by
  refine ⟨h.1, ?_⟩
  intro i hi
  have hlength := LawfulTree.length?_congr hhead
  have hsome := h.2 i hi
  unfold Tree.length? at hlength
  unfold Tree.element? at hsome ⊢
  rcases ha : Tree.elements? a with _ | items <;> rcases hb : Tree.elements? b with _ | items' <;>
    simp_all

/-- All replacements are sound. -/
def Replacements.AllSound [LawfulTree α] (replacements : Replacements α) : Prop :=
  ∀ path value, replacements.get? path = some value → Sound value

theorem Replacements.allSound_ofList [LawfulTree α] {entries : List (String × α)}
    (h : ∀ entry ∈ entries, Sound entry.2) : AllSound (SortedMap.ofList entries) := by
  intro path value hget
  exact h _ (SortedMap.mem_of_get?_ofList hget)

/-- What stands one step below a node after the replacement for it was written, if there is
one. -/
def settled (replacements : Replacements α) (here : Location) (node : α)
    (step : Location.Step) : Option α :=
  match replacements.get? (here ++ [step]).text with
  | some value => some value
  | none =>
    match Tree.child? node step with
    | .ok child => child
    | .error _ => none

section Settled

variable {replacements : Replacements α} {here : Location} {node : α} {step : Location.Step}

theorem settled_of_get? {value : α}
    (h : replacements.get? (here ++ [step]).text = some value) :
    settled replacements here node step = some value := by
  simp [settled, h]

theorem settled_of_child? {child : Option α}
    (h : replacements.get? (here ++ [step]).text = none)
    (hchild : Tree.child? node step = .ok child) :
    settled replacements here node step = child := by
  simp [settled, h, hchild]

/-- What stands below a node is a replacement, or was there before. -/
theorem settled_eq_some {child : α} (h : settled replacements here node step = some child) :
    replacements.get? (here ++ [step]).text = some child ∨
      Tree.child? node step = .ok (some child) := by
  unfold settled at h
  split at h
  · next value hget => exact .inl (by simpa [hget] using h)
  · split at h
    · next old hchild => exact .inr (by rw [hchild, h])
    · cases h

/-- What stands one step below a sound node after the lookup is sound. -/
theorem sound_settled [LawfulTree α] (hR : replacements.AllSound) {child : α}
    (hs : Sound node) (h : settled replacements here node step = some child) :
    Sound child := by
  rcases settled_eq_some h with hget | hchild
  · exact hR _ _ hget
  · exact LawfulTree.sound_child hs hchild

end Settled

/-! ## Setting replacements -/

section Setting

variable {replacements : Replacements α}

theorem setReplacedField_spec {here : Location} {name : String} {node out : α}
    (h : setReplacedField replacements here name node = .ok out) :
    (replacements.get? (here.field name).text = none ∧ out = node) ∨
      ∃ value, replacements.get? (here.field name).text = some value ∧
        Tree.setChild node (.field name) value = .ok () out := by
  unfold setReplacedField at h
  split at h
  · next hget => exact .inl ⟨hget, by simpa using h.symm⟩
  · next value hget =>
    refine .inr ⟨value, hget, ?_⟩
    split at h
    · next hset =>
      cases h
      exact Outcome.ofCopy_eq_ok_iff.mp hset
    · cases h
    · cases h

variable [LawfulTree α]

/-- Setting the replacements for elements at some positions changes the elements at these
positions for which there are replacements. -/
theorem setReplacedElements_spec (hR : replacements.AllSound) {here : Location}
    {positions : List Nat} {node out : α} (hs : Sound node)
    (h : setReplacedElements replacements here positions node = .ok out) :
    Sound out ∧ head out = head node ∧ ∀ step,
      (∀ i value, step = .index i → i ∈ positions →
        replacements.get? (here ++ [step]).text = some value →
          Tree.child? out step = .ok (some value)) ∧
      ((∀ i, step = .index i → i ∈ positions →
        replacements.get? (here ++ [step]).text = none) →
          Tree.child? out step = Tree.child? node step) := by
  -- Induction on the positions, for the node that the ones before have made.
  induction positions generalizing node with
  | nil =>
    obtain rfl : node = out := by simpa [setReplacedElements] using h
    exact ⟨hs, rfl, fun step => ⟨by simp, fun _ => rfl⟩⟩
  | cons i rest ih =>
    rw [setReplacedElements] at h
    split at h
    · next hget =>
      -- there is nothing for the first position
      obtain ⟨sound, heads, steps⟩ := ih hs h
      refine ⟨sound, heads, fun step => ⟨fun j value hj hm hv => ?_, fun hnone => ?_⟩⟩
      · refine (steps step).1 j value hj ((List.mem_cons.mp hm).resolve_left ?_) hv
        rintro rfl
        rw [hj] at hv
        exact absurd (hget.symm.trans hv) (by simp)
      · exact (steps step).2 fun j hj hm => hnone j hj (List.mem_cons_of_mem _ hm)
    · next value hget =>
      split at h
      · next written hset =>
        have hset : Tree.setChild node (.index i) value = .ok () written :=
          Outcome.ofCopy_eq_ok_iff.mp hset
        have hrep := LawfulTree.replaced_setChild hs hset
        have hsound := LawfulTree.sound_setChild hs (hR _ _ hget) hset
        obtain ⟨sound, heads, steps⟩ := ih hsound h
        refine ⟨sound, heads.trans hrep.head_eq,
          fun step => ⟨fun j v hj hm hv => ?_, fun hnone => ?_⟩⟩
        · by_cases hjr : j ∈ rest
          · exact (steps step).1 j v hj hjr hv
          · -- the position is the one just set, and is not set again
            obtain rfl : j = i := (List.mem_cons.mp hm).resolve_right hjr
            subst hj
            obtain rfl : value = v := by simpa using hget.symm.trans hv
            rw [(steps _).2 fun k hk hkr => ?_, hrep.child?_self]
            cases hk
            exact absurd hkr hjr
        · have hne : step ≠ .index i := by
            rintro rfl
            exact absurd (hget.symm.trans (hnone i rfl List.mem_cons_self)) (by simp)
          rw [(steps step).2 fun j hj hm => hnone j hj (List.mem_cons_of_mem _ hm),
            hrep.child?_of_ne step hne]
      · cases h

omit [LawfulTree α] in
/-- The check for nested arrays passes when no selected item is an array. -/
theorem checkNoArray_ok_iff (here : Location) (selection : Selection) (i : Nat)
    (items : List α) :
    checkNoArray here selection i items = .ok () ↔
      ¬ ∃ k x, items[k]? = some x ∧ selection.selects (i + k) = true ∧
        Tree.isNull x = false ∧ Tree.isArray x = true := by
  induction items generalizing i with
  | nil => simp [checkNoArray]
  | cons item rest ih =>
    rw [exists_selected_cons (P := fun _ x => Tree.isNull x = false ∧ Tree.isArray x = true),
      not_or, ← ih (i + 1), checkNoArray]
    split
    · next hc => simp_all
    · next hc =>
      have hc : ¬ (selection.selects i = true ∧ Tree.isNull item = false ∧
          Tree.isArray item = true) := by simp_all
      rw [and_iff_right hc]

/-! The checks that a task makes after writing are whether it fits. -/

theorem Task.fits_field_iff {name : String} {node : α} :
    (Task.field name).Fits node ↔ ∃ focus, Tree.focusField? node name = .ok focus := by
  simp only [Fits, LawfulTree.field?_eq, map_eq_ok_iff]
  constructor
  · rintro ⟨child, focus, hfocus, -⟩
    exact ⟨focus, hfocus⟩
  · rintro ⟨focus, hfocus⟩
    exact ⟨_, focus, hfocus, rfl⟩

theorem Task.fits_elements_iff {selection : Selection} {node : α} (here : Location) :
    (Task.elements selection).Fits node ↔ ∃ focus, Tree.focusElements? node = some focus ∧
      checkNoArray here selection 0 focus.part = .ok () := by
  simp only [Fits, LawfulTree.elements?_eq, Option.map_eq_some_iff, checkNoArray_ok_iff,
    Nat.zero_add]
  constructor
  · rintro ⟨items, ⟨focus, hfocus, rfl⟩, hitems⟩
    refine ⟨focus, hfocus, ?_⟩
    rintro ⟨i, item, hget, hsel, hnull, harr⟩
    simp [hitems i item hget hsel hnull] at harr
  · rintro ⟨focus, hfocus, hnone⟩
    refine ⟨focus.part, ⟨focus, hfocus, rfl⟩, ?_⟩
    intro i item hget hsel hnull
    by_contra harr
    exact hnone ⟨i, item, hget, hsel, hnull, by simpa using harr⟩

end Setting

/-! ## One task at one node -/

section Written

variable [LawfulTree α] (replacements : Replacements α)

/-- What a task makes of a node: the replacements it looks up stand below it, and everything
else is as it was. -/
structure Task.Written (task : Task) (here : Location) (node out : α) : Prop where
  sound : Sound out
  head_eq : head out = head node
  fits : task.Fits out
  child?_of_looksUp : ∀ step, task.LooksUp node step →
    Tree.child? out step = .ok (settled replacements here node step)
  child?_of_not_looksUp : ∀ step, ¬ task.LooksUp node step →
    Tree.child? out step = Tree.child? node step
  child?_of_none : ∀ step, replacements.get? (here ++ [step]).text = none →
    Tree.child? out step = Tree.child? node step

theorem Selection.mem_positions (selection : Selection) (length i : Nat) :
    i ∈ selection.positions length ↔ selection.selects i = true ∧ i < length := by
  cases selection with
  | index j =>
    simp only [positions, selects, beq_iff_eq]
    split
    · simp only [List.mem_singleton]
      omega
    · simp only [List.not_mem_nil, false_iff]
      omega
  | every => simp [positions, selects]

variable {replacements}

/-- A task writes the replacements it looks up, and nothing else. -/
theorem Task.write_spec (hR : replacements.AllSound) {task : Task} {here : Location}
    {node out : α} (hs : Sound node)
    (h : task.write replacements here node = .ok out) :
    task.Written replacements here node out := by
  cases task with
  | field name =>
    have looksUp : ∀ step, LooksUp (.field name) node step ↔ step = .field name := by
      rintro (_ | _) <;> simp [LooksUp, selects]
    obtain ⟨hset, focus, hf⟩ := write_field_eq_ok_iff.mp h
    have fits : Fits (.field name) out := fits_field_iff.mpr ⟨focus, hf⟩
    -- without a replacement the node is only asked for the field
    rcases setReplacedField_spec hset with ⟨hget, rfl⟩ | ⟨value, hget, hchild⟩
    · refine ⟨hs, rfl, fits, ?_, fun step _ => rfl, fun step _ => rfl⟩
      intro step hstep
      obtain rfl := (looksUp step).mp hstep
      obtain ⟨child, hchild⟩ := fits
      have hchild : Tree.child? out (.field name) = .ok child := hchild
      rw [settled_of_child? hget hchild, hchild]
    · have hrep := LawfulTree.replaced_setChild hs hchild
      refine ⟨LawfulTree.sound_setChild hs (hR _ _ hget) hchild, hrep.head_eq, fits, ?_, ?_, ?_⟩
      · intro step hstep
        obtain rfl := (looksUp step).mp hstep
        rw [hrep.child?_self, settled_of_get? hget]
      · intro step hstep
        apply hrep.child?_of_ne step
        intro heq
        exact hstep ((looksUp step).mpr heq)
      · intro step hnone
        apply hrep.child?_of_ne step
        rintro rfl
        exact absurd (hget.symm.trans hnone) (by simp)
  | elements selection =>
    obtain ⟨items, focus, helems, hset, hf, hcheck⟩ := write_elements_eq_ok_iff.mp h
    have looksUp : ∀ step, LooksUp (.elements selection) node step ↔
        ∃ i, step = .index i ∧ i ∈ selection.positions items.length := by
      rintro (name | i)
      · simp [LooksUp, selects]
      · simp [LooksUp, selects, Selection.mem_positions, Tree.element?, helems]
    obtain ⟨sound, heads, steps⟩ := setReplacedElements_spec hR hs hset
    refine ⟨sound, heads, (fits_elements_iff here).mpr ⟨focus, hf, hcheck⟩, ?_, ?_, ?_⟩
    · intro step hstep
      obtain ⟨i, rfl, hi⟩ := (looksUp step).mp hstep
      cases hget : replacements.get? (here.index i).text with
      | some value => rw [(steps _).1 i value rfl hi hget, settled_of_get? hget]
      | none =>
        rw [(steps _).2 fun _ _ _ => hget, Tree.child?_index helems,
          settled_of_child? hget (Tree.child?_index helems i)]
    · intro step hstep
      apply (steps step).2
      intro i hi hm
      exact absurd ((looksUp step).mpr ⟨i, hi, hm⟩) hstep
    · intro step hnone
      exact (steps step).2 fun _ _ _ => hnone

end Written

/-! ## Going on below a node -/

section Rewritten

variable [LawfulTree α] {rewrite : Location → α → Except ResolutionError α}

/-- What rewriting the nodes that a task leads to makes of a node: they are rewritten, and
everything else is as it was. -/
structure Task.Rewritten (task : Task) (rewrite : Location → α → Except ResolutionError α)
    (here : Location) (node out : α) : Prop where
  head_eq : head out = head node
  child?_of_rewritten : ∀ step child, task.selects step = true →
    Tree.child? node step = .ok (some child) → Tree.isNull child = false →
      ∃ child', rewrite (here ++ [step]) child = .ok child' ∧
        Tree.child? out step = .ok (some child')
  child?_of_not_rewritten : ∀ step, (∀ child, task.selects step = true →
    Tree.child? node step = .ok (some child) → Tree.isNull child = true) →
      Tree.child? out step = Tree.child? node step

omit [LawfulTree α] in
/-- Rewriting items rewrites the selected ones that are not null, and leaves the others. -/
theorem rewriteItems_spec {here : Location} {selection : Selection} {i : Nat}
    {items out : List α} (h : rewriteItems rewrite here selection i items = .ok out) (k : Nat)
    (item : α) (hget : items[k]? = some item) :
    if selection.selects (i + k) = true ∧ Tree.isNull item = false then
      ∃ item', rewrite (here.index (i + k)) item = .ok item' ∧ out[k]? = some item'
    else out[k]? = some item := by
  -- Induction on the items, from whatever position they are counted.
  induction items generalizing i k out with
  | nil => simp at hget
  | cons first rest ih =>
    rw [rewriteItems] at h
    cases k with
    | zero =>
      obtain rfl : first = item := by simpa using hget
      split at h
      · next hc =>
        obtain ⟨first', hfirst, h⟩ := bind_eq_ok_iff.mp h
        obtain ⟨rest', -, hout⟩ := bind_eq_ok_iff.mp h
        obtain rfl : first' :: rest' = out := by simpa [pure, Except.pure] using hout
        rw [if_pos (by simpa using hc)]
        exact ⟨first', hfirst, rfl⟩
      · next hc =>
        obtain ⟨rest', -, rfl⟩ := map_eq_ok_iff.mp h
        rw [if_neg (by simpa using hc)]
        rfl
    | succ k =>
      have shift : i + (k + 1) = i + 1 + k := by omega
      have hget : rest[k]? = some item := by simpa using hget
      rw [shift]
      split at h
      · obtain ⟨first', -, h⟩ := bind_eq_ok_iff.mp h
        obtain ⟨rest', hrest, hout⟩ := bind_eq_ok_iff.mp h
        obtain rfl : first' :: rest' = out := by simpa [pure, Except.pure] using hout
        simpa using ih hrest k hget
      · obtain ⟨rest', hrest, rfl⟩ := map_eq_ok_iff.mp h
        simpa using ih hrest k hget

theorem Task.rewritten_of_ok {task : Task} {here : Location} {node out : α} (hs : Sound node)
    (h : rewriteReached rewrite [task] here node = .ok out) :
    task.Rewritten rewrite here node out := by
  cases task with
  | field name =>
    rcases rewriteReached_field_eq_ok h with ⟨f, child', hf, hnull, hchild', rfl⟩ | ⟨rfl, hnull⟩
    · have hrep := LawfulTree.replaced_put_field hs hf child'
      refine ⟨hrep.head_eq, ?_, ?_⟩
      · intro step child hsel hchild _
        obtain rfl := (selects_field_iff name step).mp hsel
        rw [child?_of_focusField? hf] at hchild
        obtain rfl : f.part = child := by simpa using hchild
        exact ⟨child', hchild', hrep.child?_self⟩
      · intro step hstep
        apply hrep.child?_of_ne
        rintro rfl
        have hnull' := hstep f.part (by simp [selects]) (child?_of_focusField? hf)
        simp [hnull] at hnull'
    · -- the field is absent or null, and nothing is rewritten
      refine ⟨rfl, ?_, fun _ _ => rfl⟩
      intro step child hsel hchild hnull'
      obtain rfl := (selects_field_iff name step).mp hsel
      obtain ⟨f, hf, rfl⟩ := exists_focus_of_child? hchild
      simp [hnull f hf] at hnull'
  | elements selection =>
    rcases rewriteReached_elements_eq_ok h with ⟨f, items, hf, hitems, rfl⟩ | ⟨rfl, hf⟩
    · have helems := elements?_of_focusElements? hf
      have helems' := elements?_put hf items
      refine ⟨rewriteReached_head h, ?_, ?_⟩
      · intro step child hsel hchild hnull
        obtain ⟨k, rfl, hk⟩ := (selects_elements_iff selection step).mp hsel
        rw [Tree.child?_index helems] at hchild
        have spec := rewriteItems_spec hitems k child (by simpa using hchild)
        rw [Nat.zero_add, if_pos ⟨hk, hnull⟩] at spec
        obtain ⟨child', hchild', hget⟩ := spec
        exact ⟨child', hchild', by rw [Tree.child?_index helems', hget]⟩
      · intro step hstep
        cases step with
        | field name => exact LawfulTree.field?_put_elements hf items name
        | index k =>
          rw [Tree.child?_index helems', Tree.child?_index helems]
          cases hget : f.part[k]? with
          | none =>
            have hlen := rewriteItems_length hitems
            rw [List.getElem?_eq_none_iff] at hget
            rw [List.getElem?_eq_none (by omega)]
          | some item =>
            have spec := rewriteItems_spec hitems k item hget
            rw [Nat.zero_add, if_neg] at spec
            · rw [spec]
            · rintro ⟨hsel, hnull⟩
              have hnull' := hstep item hsel (by rw [Tree.child?_index helems, hget])
              simp [hnull] at hnull'
    · -- the node has no elements, and nothing is rewritten
      refine ⟨rfl, ?_, fun _ _ => rfl⟩
      intro step child hsel hchild _
      obtain ⟨k, rfl, -⟩ := (selects_elements_iff selection step).mp hsel
      have helems : Tree.elements? out = none := by
        rw [LawfulTree.elements?_eq, hf]
        rfl
      simp [Tree.child?, Tree.element?, helems] at hchild

omit [LawfulTree α] in
/-- Rewriting items succeeds when it does for each selected one that is not null. -/
theorem exists_rewriteItems {here : Location} {selection : Selection} {i : Nat} {items : List α}
    (h : ∀ k item, items[k]? = some item → selection.selects (i + k) = true →
      Tree.isNull item = false → ∃ item', rewrite (here.index (i + k)) item = .ok item') :
    ∃ out, rewriteItems rewrite here selection i items = .ok out := by
  induction items generalizing i with
  | nil => exact ⟨[], rfl⟩
  | cons item rest ih =>
    obtain ⟨rest', hrest⟩ : ∃ rest', rewriteItems rewrite here selection (i + 1) rest
        = .ok rest' := by
      apply ih
      intro k x hget hsel hnull
      have shift : i + 1 + k = i + (k + 1) := by omega
      rw [shift] at hsel ⊢
      exact h (k + 1) x (by simpa using hget) hsel hnull
    rw [rewriteItems]
    split
    · next hc =>
      rw [Bool.and_eq_true, Bool.not_eq_true'] at hc
      obtain ⟨item', hitem⟩ := h 0 item rfl hc.1 hc.2
      rw [Nat.add_zero] at hitem
      refine ⟨item' :: rest', ?_⟩
      simp [hitem, hrest, bind, Except.bind, pure, Except.pure]
    · exact ⟨item :: rest', by rw [hrest]; rfl⟩

/-- Rewriting what a task leads to succeeds when it does for each of these nodes. -/
theorem exists_rewriteReached {task : Task} {here : Location} {node : α}
    (h : ∀ step child, task.selects step = true → Tree.child? node step = .ok (some child) →
      Tree.isNull child = false → ∃ child', rewrite (here ++ [step]) child = .ok child') :
    ∃ out, rewriteReached rewrite [task] here node = .ok out := by
  cases task with
  | field name =>
    rcases hf : Tree.focusField? node name with e | _ | f <;> simp only [rewriteReached, hf]
    · exact ⟨node, rfl⟩
    · exact ⟨node, rfl⟩
    · split
      · exact ⟨node, rfl⟩
      · next hnull =>
        have hchild := child?_of_focusField? hf
        obtain ⟨child', hchild'⟩ :=
          h (.field name) f.part (by simp [Task.selects]) hchild (by simpa using hnull)
        exact ⟨f.put child', map_eq_ok_iff.mpr ⟨child', hchild', rfl⟩⟩
  | elements selection =>
    cases hf : Tree.focusElements? node with
    | none =>
      simp only [rewriteReached, hf]
      exact ⟨node, rfl⟩
    | some f =>
      have helems := elements?_of_focusElements? hf
      simp only [rewriteReached, hf]
      obtain ⟨items, hitems⟩ : ∃ items,
          rewriteItems (rewriteReached rewrite []) here selection 0 f.part = .ok items := by
        apply exists_rewriteItems
        intro k item hget hsel hnull
        rw [Nat.zero_add] at hsel ⊢
        exact h (.index k) item hsel (by rw [Tree.child?_index helems, hget]) hnull
      exact ⟨f.put items, map_eq_ok_iff.mpr ⟨items, hitems, rfl⟩⟩

/-- Rewriting sound nodes by what keeps them sound keeps them sound. -/
theorem rewriteReached_sound (keeps : ∀ here node out, Sound node →
      rewrite here node = .ok out → Sound out) {task : Task} {here : Location} {node out : α}
    (hs : Sound node) (h : rewriteReached rewrite [task] here node = .ok out) : Sound out := by
  cases task with
  | field name =>
    rcases rewriteReached_field_eq_ok h with ⟨f, child', hf, -, hchild', rfl⟩ | ⟨rfl, -⟩
    · have hchild := LawfulTree.sound_child hs (child?_of_focusField? hf)
      exact LawfulTree.sound_put_field hs hf (keeps _ _ _ hchild hchild')
    · exact hs
  | elements selection =>
    rcases rewriteReached_elements_eq_ok h with ⟨f, items, hf, hitems, rfl⟩ | ⟨rfl, -⟩
    · apply LawfulTree.sound_put_elements hf
      intro item' hm
      obtain ⟨k, hk, rfl⟩ := List.mem_iff_getElem.mp hm
      have hk' : k < f.part.length := by rwa [← rewriteItems_length hitems]
      have hchild : Tree.child? node (.index k) = .ok (some f.part[k]) := by
        rw [Tree.child?_index (elements?_of_focusElements? hf), List.getElem?_eq_getElem hk']
      have hitem := LawfulTree.sound_child hs hchild
      have spec := rewriteItems_spec hitems k _ (List.getElem?_eq_getElem hk')
      rw [List.getElem?_eq_getElem hk] at spec
      -- an item was rewritten, or is the one that was there before
      split at spec
      · obtain ⟨item', hitem', hget⟩ := spec
        obtain rfl : items[k] = item' := by simpa using hget
        exact keeps _ _ _ hitem hitem'
      · obtain heq : items[k] = f.part[k] := by simpa using spec
        exact heq ▸ hitem
    · exact hs

end Rewritten

/-! ## All tasks below one node -/

section Below

variable [LawfulTree α] {replacements : Replacements α}

/-- Writing along tasks keeps the head of the node, and what its type guarantees. -/
theorem writeBelow_keeps (hR : replacements.AllSound) {tasks : List Task} {here : Location}
    {node out : α} (hs : Sound node)
    (h : writeBelow replacements tasks here node = .ok out) :
    Sound out ∧ head out = head node := by
  -- Induction on the tasks, for all nodes at once: the others work on many of them.
  induction tasks generalizing here node out with
  | nil =>
    obtain rfl : node = out := by simpa [writeBelow] using h
    exact ⟨hs, rfl⟩
  | cons task rest ih =>
    obtain ⟨written, hwrite, hrewrite⟩ := bind_eq_ok_iff.mp h
    have first := Task.write_spec hR hs hwrite
    refine ⟨rewriteReached_sound (fun here node out hs h => (ih hs h).1) first.sound hrewrite, ?_⟩
    rw [rewriteReached_head hrewrite, first.head_eq]

variable (replacements) in
/-- What the remaining tasks make of what stands at a location: nothing of what is absent or
null, and of everything else what writing below it does. -/
inductive Descends (rest : List Task) (here : Location) : Option α → Option α → Prop where
  /-- Nothing is there. -/
  | absent : Descends rest here none none
  /-- What is there is null. -/
  | null {child : α} (null : Tree.isNull child = true) :
    Descends rest here (some child) (some child)
  /-- The tasks go on with what is there. -/
  | below {child out : α} (notNull : Tree.isNull child = false)
    (written : writeBelow replacements rest here child = .ok out) :
    Descends rest here (some child) (some out)

omit [LawfulTree α] in
/-- The tasks go on with everything that is not null. -/
theorem Descends.of_not_null {rest : List Task} {here : Location} {child : α} {after : Option α}
    (h : Descends replacements rest here (some child) after) (hnull : Tree.isNull child = false) :
    ∃ out, after = some out ∧ writeBelow replacements rest here child = .ok out := by
  cases h with
  | null null => simp [hnull] at null
  | below _ written => exact ⟨_, rfl, written⟩

variable (replacements) in
/-- What writing along tasks makes of a node: one step below it the first task writes what it
looks up, with which the others go on, and everything else is as it was. -/
structure WrittenBelow (task : Task) (rest : List Task) (here : Location) (node out : α) :
    Prop where
  sound : Sound out
  head_eq : head out = head node
  fits : task.Fits out
  descends : ∀ step, task.LooksUp node step → ∃ after, Tree.child? out step = .ok after ∧
    Descends replacements rest (here ++ [step]) (settled replacements here node step) after
  found : ∀ step, task.LooksUp node step →
    replacements.get? (here ++ [step]).text = none →
      Tree.child? node step = .ok (settled replacements here node step)
  unchanged : ∀ step, ¬ task.LooksUp node step →
    Tree.child? out step = Tree.child? node step

/-- A task still fits a node in which only nodes below those it selects were rewritten. -/
theorem Task.Rewritten.fits {rewrite : Location → α → Except ResolutionError α} {task : Task}
    {here : Location} {node out : α} (h : task.Rewritten rewrite here node out)
    (keeps : ∀ here child child', Tree.isNull child = false → Sound child →
      rewrite here child = .ok child' → head child' = head child)
    (hs : Sound node) (hfits : task.Fits node) : task.Fits out := by
  cases task with
  | field name =>
    obtain ⟨child, hchild⟩ := hfits
    have hchild : Tree.child? node (.field name) = .ok child := hchild
    by_cases hrew : ∃ x, child = some x ∧ Tree.isNull x = false
    · obtain ⟨x, rfl, hnull⟩ := hrew
      obtain ⟨child', -, hout⟩ := h.child?_of_rewritten _ x (by simp [selects]) hchild hnull
      exact ⟨some child', hout⟩
    · refine ⟨child, (h.child?_of_not_rewritten (.field name) fun x _ hx => ?_).trans hchild⟩
      rw [hchild, Except.ok.injEq] at hx
      by_contra hnull
      exact hrew ⟨x, hx, by simpa using hnull⟩
  | elements selection =>
    obtain ⟨items, helems, hitems⟩ := hfits
    obtain ⟨items', helems', hlen⟩ : ∃ items', Tree.elements? out = some items' ∧
        items'.length = items.length := by
      have length := LawfulTree.length?_congr h.head_eq
      simpa [Tree.length?, helems] using length
    refine ⟨items', helems', fun i item' hget' hsel hnull' => ?_⟩
    obtain ⟨item, hget⟩ : ∃ item, items[i]? = some item := by
      have hlt := (List.getElem?_eq_some_iff.mp hget').1
      exact ⟨_, List.getElem?_eq_getElem (by omega)⟩
    have hchild : Tree.child? node (.index i) = .ok (some item) := by
      rw [Tree.child?_index helems, hget]
    have hchild' : Tree.child? out (.index i) = .ok (some item') := by
      rw [Tree.child?_index helems', hget']
    cases hnull : Tree.isNull item with
    | true =>
      -- null elements are left as they are
      have same := h.child?_of_not_rewritten (.index i) fun x _ hx => by
        rw [hchild] at hx
        obtain rfl : item = x := by simpa using hx
        exact hnull
      rw [hchild, hchild'] at same
      obtain rfl : item' = item := by simpa using same
      simp [hnull] at hnull'
    | false =>
      obtain ⟨x, hx, hout⟩ := h.child?_of_rewritten (.index i) item hsel hchild hnull
      rw [hchild'] at hout
      obtain rfl : item' = x := by simpa using hout
      have heads := keeps _ _ _ hnull (LawfulTree.sound_child hs hchild) hx
      have length := LawfulTree.length?_congr heads
      have harr := hitems i item hget hsel hnull
      simp only [Tree.isArray, Tree.length?] at length harr ⊢
      simpa [harr] using congrArg Option.isSome length

/-- Everything that writing along tasks does one step below a node. -/
theorem writeBelow_cons (hR : replacements.AllSound) {task : Task} {rest : List Task}
    {here : Location} {node out : α} (hs : Sound node)
    (h : writeBelow replacements (task :: rest) here node = .ok out) :
    WrittenBelow replacements task rest here node out := by
  obtain ⟨sound, heads⟩ := writeBelow_keeps hR hs h
  obtain ⟨written, hwrite, hrewrite⟩ := bind_eq_ok_iff.mp h
  have first := Task.write_spec hR hs hwrite
  have others := Task.rewritten_of_ok first.sound hrewrite
  refine ⟨sound, heads, ?_, fun step hstep => ?_, fun step hstep hnone => ?_,
    fun step hstep => ?_⟩
  · exact others.fits (fun _ _ _ _ hs h => (writeBelow_keeps hR hs h).2) first.sound first.fits
  · have hsettled := first.child?_of_looksUp step hstep
    cases hc : settled replacements here node step with
    | none =>
      -- nothing is there, so that the others have nothing to go on with
      rw [hc] at hsettled
      refine ⟨none, ?_, .absent⟩
      rw [others.child?_of_not_rewritten step fun x _ hx => by simp [hsettled] at hx, hsettled]
    | some child =>
      rw [hc] at hsettled
      cases hnull : Tree.isNull child with
      | true =>
        -- what is null stays
        refine ⟨some child, ?_, .null hnull⟩
        rw [others.child?_of_not_rewritten step fun x _ hx => ?_, hsettled]
        rw [hsettled] at hx
        obtain rfl : child = x := by simpa using hx
        exact hnull
      | false =>
        -- the others go on with what stands there
        obtain ⟨child', hchild', hout⟩ :=
          others.child?_of_rewritten step child hstep.1 hsettled hnull
        exact ⟨some child', hout, .below hnull hchild'⟩
  · rw [← first.child?_of_none step hnone, first.child?_of_looksUp step hstep]
  · have hunchanged := first.child?_of_not_looksUp step hstep
    rw [others.child?_of_not_rewritten step fun child hsel hchild => ?_, hunchanged]
    -- a child that is there is looked up, so there is none
    rw [hunchanged] at hchild
    exact absurd (Task.LooksUp.of_child? hsel hchild) hstep

end Below

end RecordCipher
