import RecordCipher.Proofs.Plan.Writing
import RecordCipher.Proofs.Tree.Document
import RecordCipher.Proofs.Tree.Structured

/-!
# What failures of writing are about

Writing fails at a node that it has come to: the tasks before lead to it, in the record as they
have left it. The failure names the node, or what stands one step below it, and says what the
node refuses. There is one exception. That a record does not declare a field is said of the
record when there is no replacement for the field, as reading does, and of the field when there
is one.

## Main definitions

* `AccountableTree`: nodes that say what they refuse
* `Plan.Meets`: the nodes that writing along a plan comes to
* `Task.Explains`: the failures that a task can have at a node

## Main results

* `exists_of_rewriteReached_eq_error`, `exists_of_writeLevels_eq_error`: the level that fails, and
  the node
* `Task.explains_of_write`: what a task says of a node when it fails there
* `Plan.write_eq_error`: what writing along a plan says when it fails, in both flavors
-/

namespace RecordCipher

/-! ## What nodes refuse -/

/-- Nodes that say what they refuse: a field for lack of fields, or because it is not declared; a
value where there is a place for it. -/
class AccountableTree (α : Type) [Tree α] : Prop where
  field?_error : ∀ {node : α} {name : String} {e : AccessError},
    Tree.field? node name = .error e →
      e = .notAnObject (Tree.kind node) ∨ ∃ declared, e = .undeclaredField name declared
  setField_error : ∀ {node value left : α} {name : String} {e : AccessError},
    Tree.setField node name value = .error e left →
      Tree.field? node name = .error e ∨ ∃ reason, e = .rejected reason
  field?_setField : ∀ {node value node' : α} {name : String},
    Tree.setField node name value = .ok () node' → ∃ child, Tree.field? node' name = .ok child
  setElement_error : ∀ {node value left : α} {i : Nat} {e : AccessError} {items : List α},
    Tree.elements? node = some items → Tree.setElement node i value = .error e left →
      ∃ reason, e = .rejected reason
  elements?_setElement : ∀ {node value node' : α} {i : Nat} {items : List α},
    Tree.elements? node = some items → Tree.setElement node i value = .ok () node' →
      Tree.elements? node' = some (items.set i value)

instance : AccountableTree Json where
  field?_error {node name e} h := by
    cases node <;> simp [Tree.field?, Json.field?] at h <;> exact .inl h.symm
  setField_error {node value left name e} h := by
    cases node with
    | object members => cases h
    | _ =>
      cases h
      exact .inl rfl
  field?_setField {node value node' name} h := by
    cases node with
    | object members =>
      cases h
      exact ⟨_, rfl⟩
    | _ => cases h
  setElement_error {node value left i e items} hitems h := by
    cases node with
    | array items => exact (Json.setElement_array_eq_error h).2
    | _ => cases hitems
  elements?_setElement {node value node' i items} hitems h := by
    obtain ⟨_, rfl, -, rfl⟩ := Json.setElement_eq_ok h
    obtain rfl := Option.some.inj hitems
    rfl

/-- No field of a document is undeclared. -/
theorem Json.field?_ne_undeclared (node : Json) (name field : String) (declared : List String) :
    Tree.field? node name ≠ .error (.undeclaredField field declared) := by
  cases node <;> simp [Tree.field?, Json.field?]

instance : AccountableTree Datum where
  field?_error h := by
    rcases Datum.field?_eq_error h with ⟨-, hkind⟩ | ⟨schema, slots, -, -, rfl⟩
    · exact .inl hkind
    · exact .inr ⟨_, rfl⟩
  setField_error {node value left name e} h := by
    cases node with
    | struct schema slots =>
      rcases (Datum.setField_struct_eq_error h).2 with ⟨hfield, rfl⟩ | hrejected
      · exact .inl (Datum.child?_field_of_undeclared hfield)
      · exact .inr hrejected
    | _ =>
      cases h
      exact .inl rfl
  field?_setField {node value node' name} h := by
    obtain ⟨schema, slots, field, rfl, hfield, -, rfl⟩ := Datum.setField_eq_ok h
    exact ⟨_, Datum.child?_field_of_declared hfield⟩
  setElement_error {node value left i e items} hitems h := by
    cases node with
    | array items => exact (Datum.setElement_array_eq_error h).2
    | scalar value => cases hitems
    | struct schema slots => cases hitems
  elements?_setElement {node value node' i items} hitems h := by
    obtain ⟨_, _, rfl, -, -, rfl⟩ := Datum.setElement_eq_ok h
    obtain rfl := Option.some.inj hitems
    rfl

section

variable {α : Type} [Tree α]

/-! ## The node at which writing fails -/

/-- Rewriting items fails at one of them that is selected and not null. -/
theorem exists_of_rewriteItems_eq_error {rewrite : Location → α → Except ResolutionError α}
    {here : Location} {selection : Selection} {i : Nat} {items : List α} {e : ResolutionError}
    (h : rewriteItems rewrite here selection i items = .error e) :
    ∃ k item, items[k]? = some item ∧ selection.selects (i + k) = true ∧
      Tree.isNull item = false ∧ rewrite (here.index (i + k)) item = .error e := by
  induction items generalizing i with
  | nil => cases h
  | cons item rest ih =>
    rw [exists_selected_cons (P := fun k x => Tree.isNull x = false ∧
      rewrite (here.index k) x = .error e)]
    rw [rewriteItems] at h
    split at h
    · next hc =>
      rw [Bool.and_eq_true, Bool.not_eq_true'] at hc
      rcases bind_eq_error_iff.mp h with hitem | ⟨item', -, h⟩
      · exact .inl ⟨hc.1, hc.2, hitem⟩
      · rcases bind_eq_error_iff.mp h with hrest | ⟨rest', -, h⟩
        · exact .inr (ih hrest)
        · cases h
    · exact .inr (ih (map_eq_error_iff.mp h))

/-- Rewriting what tasks lead to fails at one of these nodes. -/
theorem exists_of_rewriteReached_eq_error [LawfulTree α]
    {rewrite : Location → α → Except ResolutionError α} {tasks : List Task} {here : Location}
    {node : α} {e : ResolutionError} (h : rewriteReached rewrite tasks here node = .error e) :
    ∃ l x, Reaches tasks node l x ∧ rewrite (here ++ l) x = .error e := by
  -- Induction on the tasks: the others fail below a node that the first one selects.
  induction tasks generalizing here node with
  | nil => exact ⟨[], node, ⟨rfl, rfl⟩, by simpa [rewriteReached] using h⟩
  | cons task rest ih =>
    -- what fails below a child of the node
    have below : ∀ step child, task.selects step = true →
        Tree.child? node step = .ok (some child) → Tree.isNull child = false →
          rewriteReached rewrite rest (here ++ [step]) child = .error e →
            ∃ l x, Reaches (task :: rest) node l x ∧ rewrite (here ++ l) x = .error e := by
      intro step child hsel hchild hnull hfails
      obtain ⟨l, x, hreach, hx⟩ := ih hfails
      exact ⟨step :: l, x, ⟨hsel, child, hchild, hnull, hreach⟩, by simpa using hx⟩
    cases task with
    | field name =>
      rcases hf : Tree.focusField? node name with _ | _ | f <;> simp only [rewriteReached, hf] at h
      · cases h
      · cases h
      · cases hnull : Tree.isNull f.part with
        | true => simp [hnull] at h
        | false =>
          simp only [hnull, Bool.false_eq_true, if_false, map_eq_error_iff] at h
          exact below (.field name) f.part (by simp [Task.selects]) (child?_of_focusField? hf)
            hnull h
    | elements selection =>
      cases hf : Tree.focusElements? node with
      | none => simp [rewriteReached, hf] at h
      | some f =>
        simp only [rewriteReached, hf, map_eq_error_iff] at h
        obtain ⟨k, item, hget, hsel, hnull, hfails⟩ := exists_of_rewriteItems_eq_error h
        rw [Nat.zero_add] at hsel hfails
        have hchild : Tree.child? node (.index k) = .ok (some item) := by
          rw [Tree.child?_index (elements?_of_focusElements? hf), hget]
        exact below (.index k) item hsel hchild hnull hfails

/-- Writing level by level fails at the level of one task, after the levels of those before. -/
theorem exists_of_writeLevels_eq_error {replacements : Replacements α} {done tasks : List Task}
    {root : α} {e : ResolutionError} (h : writeLevels replacements done tasks root = .error e) :
    ∃ front task rest mid, tasks = front ++ task :: rest ∧
      writeLevels replacements done front root = .ok mid ∧
      rewriteReached (fun here node => task.write replacements here node) (done ++ front)
        Location.root mid = .error e := by
  induction tasks generalizing done root with
  | nil => cases h
  | cons task rest ih =>
    rcases bind_eq_error_iff.mp h with hlevel | ⟨written, hlevel, h⟩
    · exact ⟨[], task, rest, root, rfl, rfl, by simpa using hlevel⟩
    · obtain ⟨front, last, others, mid, rfl, hmid, hfails⟩ := ih h
      refine ⟨task :: front, last, others, mid, rfl, ?_, by simpa using hfails⟩
      exact bind_eq_ok_iff.mpr ⟨written, hlevel, hmid⟩

/-- Writing along a plan comes to a node with a task: the tasks before lead to the node, in the
record as they have left it. -/
def Plan.Meets (plan : Plan) (replacements : Replacements α) (root : α) (l : Location) (node : α)
    (task : Task) : Prop :=
  ∃ done rest mid, plan.tasks = done ++ task :: rest ∧
    writeLevels replacements [] done root = .ok mid ∧ Reaches done mid l node

/-- Writing along a plan fails at a node that it comes to. -/
theorem Plan.exists_of_write_eq_error [LawfulTree α] {plan : Plan} {replacements : Replacements α}
    {root : α} {e : ResolutionError} (h : plan.write root replacements = .error e) :
    ∃ l node task, plan.Meets replacements root l node task ∧
      task.write replacements l node = .error e := by
  unfold Plan.write at h
  split at h
  · cases h
  split at h
  · cases h
  obtain ⟨done, task, rest, mid, htasks, hmid, hfails⟩ := exists_of_writeLevels_eq_error h
  obtain ⟨l, node, hreach, hnode⟩ := exists_of_rewriteReached_eq_error hfails
  exact ⟨l, node, task, ⟨done, rest, mid, htasks, hmid, hreach⟩, hnode⟩

/-! ## What a task says of a node -/

/-- The failures that a task can have at a node. -/
inductive Task.Explains (replacements : Replacements α) (here : Location) (node : α) :
    Task → ResolutionError → Prop where
  /-- The node has no fields; its kind is named. -/
  | noFields {name : String} (refused : Tree.field? node name = .error (.notAnObject
    (Tree.kind node))) :
    Explains replacements here node (.field name)
      (.shapeMismatch here.text .object (Tree.kind node))
  /-- The node has no elements; its kind is named. -/
  | noElements {selection : Selection} (refused : Tree.elements? node = none) :
    Explains replacements here node (.elements selection)
      (.shapeMismatch here.text .array (Tree.kind node))
  /-- The node does not declare the field. Without a replacement for the field, the node is
  named. -/
  | undeclared {name : String} {declared : List String}
    (refused : Tree.field? node name = .error (.undeclaredField name declared))
    (get?_eq : replacements.get? (here.field name).text = none) :
    Explains replacements here node (.field name) (.undeclaredField here.text name declared)
  /-- The node does not declare the field. With a replacement for the field, the field is
  named. -/
  | undeclaredReplaced {name : String} {declared : List String} {value : α}
    (refused : Tree.field? node name = .error (.undeclaredField name declared))
    (get?_eq : replacements.get? (here.field name).text = some value) :
    Explains replacements here node (.field name)
      (.undeclaredField (here.field name).text name declared)
  /-- An element that is selected is an array, once the replacements are in place. -/
  | nested {selection : Selection} {i : Nat} {item : α} (selected : selection.selects i = true)
    (settled_eq : settled replacements here node (.index i) = some item)
    (isArray : Tree.isArray item = true) :
    Explains replacements here node (.elements selection) (.nestedArray (here.index i).text)
  /-- A replacement is rejected, by the node as it is but for replacements at other steps. -/
  | rejected {task : Task} {step : Location.Step} {value before left : α} {reason : String}
    (looksUp : task.LooksUp node step)
    (get?_eq : replacements.get? (here ++ [step]).text = some value)
    (child?_eq : Tree.child? before step = Tree.child? node step)
    (refused : Tree.setChild before step value = .error (.rejected reason) left) :
    Explains replacements here node task (.rejectedValue (here ++ [step]).text reason)

theorem Selection.nodup_positions (selection : Selection) (length : Nat) :
    (selection.positions length).Nodup := by
  cases selection with
  | index i =>
    rw [positions]
    split <;> simp
  | every => exact List.nodup_range

/-- The check for nested arrays fails at a selected item that is an array. -/
theorem checkNoArray_eq_error {here : Location} {selection : Selection} {i : Nat} {items : List α}
    {e : ResolutionError} (h : checkNoArray here selection i items = .error e) :
    ∃ k item, items[k]? = some item ∧ selection.selects (i + k) = true ∧
      Tree.isArray item = true ∧ e = .nestedArray (here.index (i + k)).text := by
  induction items generalizing i with
  | nil => cases h
  | cons item rest ih =>
    rw [exists_selected_cons (P := fun k x => Tree.isArray x = true ∧
      e = .nestedArray (here.index k).text)]
    rw [checkNoArray] at h
    split at h
    · next hc =>
      simp only [Bool.and_eq_true] at hc
      exact .inl ⟨hc.1.1, hc.2, (Except.error.inj h).symm⟩
    · exact .inr (ih h)

section

variable [AccountableTree α] {replacements : Replacements α} {here : Location}

/-- Setting replacements for elements fails at the one that is rejected. -/
theorem setReplacedElements_eq_error {positions : List Nat} (nodup : positions.Nodup) {node : α}
    {items : List α} {e : ResolutionError} (hitems : Tree.elements? node = some items)
    (h : setReplacedElements replacements here positions node = .error e) :
    ∃ i ∈ positions, ∃ value before left reason,
      replacements.get? (here.index i).text = some value ∧
      Tree.element? before i = items[i]? ∧
      Tree.setElement before i value = .error (.rejected reason) left ∧
      e = .rejectedValue (here.index i).text reason := by
  -- Induction on the positions, for the node that the ones before have made.
  induction positions generalizing node items with
  | nil => cases h
  | cons i rest ih =>
    obtain ⟨hi, hrest⟩ := List.nodup_cons.mp nodup
    rw [setReplacedElements] at h
    split at h
    · obtain ⟨j, hj, found⟩ := ih hrest hitems h
      exact ⟨j, List.mem_cons_of_mem i hj, found⟩
    · next value hget =>
      split at h
      · next written hset =>
        have hwritten :=
          AccountableTree.elements?_setElement hitems (Outcome.ofCopy_eq_ok_iff.mp hset)
        obtain ⟨j, hj, value', before, left, reason, hget', hbefore, hrefused, he⟩ :=
          ih hrest hwritten h
        have hne : i ≠ j := fun heq => hi (heq ▸ hj)
        refine ⟨j, List.mem_cons_of_mem i hj, value', before, left, reason, hget', ?_, hrefused, he⟩
        rw [hbefore, List.getElem?_set_ne hne]
      · next e' hset =>
        obtain ⟨left, hset⟩ := Outcome.ofCopy_eq_error_iff.mp hset
        obtain ⟨reason, rfl⟩ := AccountableTree.setElement_error hitems hset
        refine ⟨i, List.mem_cons_self, value, node, left, reason, hget, ?_, hset,
          (Except.error.inj h).symm⟩
        rw [Tree.element?, hitems]
        rfl

/-- After setting replacements for elements, what has settled stands at their positions, and
everything else is as it was. -/
theorem setReplacedElements_eq_ok {positions : List Nat} (nodup : positions.Nodup) {node out : α}
    {items : List α} (hitems : Tree.elements? node = some items)
    (h : setReplacedElements replacements here positions node = .ok out) :
    ∃ items', Tree.elements? out = some items' ∧ items'.length = items.length ∧
      ∀ i < items.length, items'[i]? =
        if i ∈ positions then settled replacements here node (.index i) else items[i]? := by
  -- Induction on the positions, for the node that the ones before have made.
  induction positions generalizing node items with
  | nil =>
    obtain rfl := Except.ok.inj h
    exact ⟨items, hitems, rfl, by simp⟩
  | cons i rest ih =>
    obtain ⟨hi, hrest⟩ := List.nodup_cons.mp nodup
    rw [setReplacedElements] at h
    split at h
    · next hget =>
      obtain ⟨items', hout, hlength, hitems'⟩ := ih hrest hitems h
      refine ⟨items', hout, hlength, fun j hj => ?_⟩
      rw [hitems' j hj]
      by_cases hji : j = i
      · subst hji
        have hsettled : settled replacements here node (.index j) = items[j]? :=
          settled_of_child? hget (Tree.child?_index hitems j)
        rw [if_neg hi, if_pos List.mem_cons_self, hsettled]
      · simp only [List.mem_cons, hji, false_or]
    · next value hget =>
      split at h
      · next written hset =>
        have hwritten :=
          AccountableTree.elements?_setElement hitems (Outcome.ofCopy_eq_ok_iff.mp hset)
        obtain ⟨items', hout, hlength, hitems'⟩ := ih hrest hwritten h
        rw [List.length_set] at hlength hitems'
        refine ⟨items', hout, hlength, fun j hj => ?_⟩
        rw [hitems' j hj]
        by_cases hji : j = i
        · subst hji
          have hsettled : settled replacements here node (.index j) = some value :=
            settled_of_get? hget
          rw [if_neg hi, if_pos List.mem_cons_self, hsettled, List.getElem?_set_self hj]
        · -- at other positions the node that was written is like the one before
          have hset : (items.set i value)[j]? = items[j]? := List.getElem?_set_ne (Ne.symm hji)
          have hchild : Tree.child? written (.index j) = Tree.child? node (.index j) := by
            rw [Tree.child?_index hwritten, Tree.child?_index hitems, hset]
          have hsettled : settled replacements here written (.index j) =
              settled replacements here node (.index j) := by simp only [settled, hchild]
          simp only [List.mem_cons, hji, false_or, hset, hsettled]
      · cases h

variable [LawfulTree α] {node : α} {e : ResolutionError}

omit [LawfulTree α] in
/-- What setting the replacement for a field says of a node. -/
theorem Task.explains_of_setReplacedField {name : String}
    (h : setReplacedField replacements here name node = .error e) :
    (Task.field name).Explains replacements here node e := by
  unfold setReplacedField at h
  split at h
  · cases h
  next value hget =>
  split at h
  · cases h
  · next found hset =>
    -- that the node has no fields is said of the node
    obtain rfl := Except.error.inj h
    obtain ⟨left, hset⟩ := Outcome.ofCopy_eq_error_iff.mp hset
    rcases AccountableTree.setField_error hset with hfield | ⟨reason, hreason⟩
    · rcases AccountableTree.field?_error hfield with hkind | ⟨declared, hdeclared⟩
      · cases hkind
        exact .noFields hfield
      · cases hdeclared
    · cases hreason
  · next refusal hne hset =>
    obtain rfl := Except.error.inj h
    obtain ⟨left, hset⟩ := Outcome.ofCopy_eq_error_iff.mp hset
    rcases AccountableTree.setField_error hset with hfield | ⟨reason, rfl⟩
    · rcases AccountableTree.field?_error hfield with rfl | ⟨declared, rfl⟩
      · exact absurd rfl (hne _)
      · exact .undeclaredReplaced hfield hget
    · have looksUp : (Task.field name).LooksUp node (.field name) := ⟨by simp [selects], nofun⟩
      exact .rejected looksUp hget rfl hset

/-- What going into a field says of a node. -/
theorem Task.explains_of_write_field {name : String}
    (h : (Task.field name).write replacements here node = .error e) :
    (Task.field name).Explains replacements here node e := by
  rcases bind_eq_error_iff.mp h with hset | ⟨written, hset, h⟩
  · exact explains_of_setReplacedField hset
  · cases hfocus : Tree.focusField? written name with
    | ok focus => simp [hfocus] at h
    | error refusal =>
      simp only [hfocus] at h
      obtain rfl := Except.error.inj h
      have hfield : Tree.field? written name = .error refusal := by
        rw [LawfulTree.field?_eq, hfocus]
        rfl
      rcases setReplacedField_spec hset with ⟨hget, rfl⟩ | ⟨value, -, hvalue⟩
      · rcases AccountableTree.field?_error hfield with rfl | ⟨declared, rfl⟩
        · exact .noFields hfield
        · exact .undeclared hfield hget
      · -- a field that was set can be asked for
        obtain ⟨child, hchild⟩ := AccountableTree.field?_setField hvalue
        cases hfield.symm.trans hchild

/-- What going to elements says of a node. -/
theorem Task.explains_of_write_elements {selection : Selection}
    (h : (Task.elements selection).write replacements here node = .error e) :
    (Task.elements selection).Explains replacements here node e := by
  rw [write] at h
  cases hitems : Tree.elements? node with
  | none =>
    simp only [hitems] at h
    obtain rfl := Except.error.inj h
    exact .noElements hitems
  | some items =>
    have nodup := selection.nodup_positions items.length
    simp only [hitems] at h
    rcases bind_eq_error_iff.mp h with hset | ⟨written, hset, h⟩
    · obtain ⟨i, hi, value, before, left, reason, hget, hbefore, hrefused, rfl⟩ :=
        setReplacedElements_eq_error nodup hitems hset
      obtain ⟨hsel, hlt⟩ := (selection.mem_positions items.length i).mp hi
      have looksUp : (Task.elements selection).LooksUp node (.index i) := by
        refine ⟨hsel, ?_⟩
        rintro _ ⟨⟩
        simp [Tree.element?, hitems, hlt]
      refine .rejected looksUp hget ?_ hrefused
      rw [Tree.child?, hbefore, Tree.child?_index hitems]
    · obtain ⟨items', hwritten, hlength, hitems'⟩ := setReplacedElements_eq_ok nodup hitems hset
      rw [LawfulTree.elements?_eq, Option.map_eq_some_iff] at hwritten
      obtain ⟨focus, hfocus, rfl⟩ := hwritten
      simp only [hfocus] at h
      rcases bind_eq_error_iff.mp h with hcheck | ⟨-, -, h⟩
      · obtain ⟨i, item, hitem, hsel, harray, rfl⟩ := checkNoArray_eq_error hcheck
        rw [Nat.zero_add] at hsel ⊢
        have hlt : i < items.length := hlength ▸ (List.getElem?_eq_some_iff.mp hitem).1
        refine .nested hsel ?_ harray
        rw [← hitem, hitems' i hlt,
          if_pos ((selection.mem_positions items.length i).mpr ⟨hsel, hlt⟩)]
      · cases h

/-- What a task says of a node when it fails there. -/
theorem Task.explains_of_write {task : Task} (h : task.write replacements here node = .error e) :
    task.Explains replacements here node e := by
  cases task with
  | field name => exact explains_of_write_field h
  | elements selection => exact explains_of_write_elements h

end

/-! ## Whole plans -/

namespace Plan

/-- Writing along a plan fails at a node that it comes to, for a reason that holds of the node. -/
theorem exists_explains_of_write [LawfulTree α] [AccountableTree α] {plan : Plan} {root : α}
    {replacements : Replacements α} {e : ResolutionError}
    (h : plan.write root replacements = .error e) :
    ∃ l node task, plan.Meets replacements root l node task ∧
      task.Explains replacements l node e := by
  obtain ⟨l, node, task, hmeets, hwrite⟩ := exists_of_write_eq_error h
  exact ⟨l, node, task, hmeets, Task.explains_of_write hwrite⟩

end Plan

end

namespace Task.Explains

variable {here : Location} {task : Task} {path field : String} {declared : List String}

/-- Nothing is undeclared in a document. -/
theorem ne_undeclared {replacements : Replacements Json} {node : Json} {e : ResolutionError}
    (h : task.Explains replacements here node e) : e ≠ .undeclaredField path field declared := by
  rintro rfl
  cases h with
  | undeclared refused get?_eq => exact Json.field?_ne_undeclared _ _ _ _ refused
  | undeclaredReplaced refused get?_eq => exact Json.field?_ne_undeclared _ _ _ _ refused

/-- What is undeclared is so by the schema of a record; the record is named, unless there is a
replacement for the field. -/
theorem eq_struct_of_undeclared {replacements : Replacements Datum} {node : Datum}
    (h : task.Explains replacements here node (.undeclaredField path field declared)) :
    ∃ schema slots, node = .struct schema slots ∧ task = .field field ∧
      field ∉ schema.fieldNames ∧ declared = schema.fieldNames ∧
      path = if (replacements.get? (here.field field).text).isSome then (here.field field).text
        else here.text := by
  cases h with
  | undeclared refused get?_eq =>
    rcases Datum.field?_eq_error refused with ⟨-, hkind⟩ | ⟨schema, slots, rfl, hname, heq⟩
    · cases hkind
    · cases heq
      exact ⟨schema, slots, rfl, rfl, hname, rfl, by simp [get?_eq]⟩
  | undeclaredReplaced refused get?_eq =>
    rcases Datum.field?_eq_error refused with ⟨-, hkind⟩ | ⟨schema, slots, rfl, hname, heq⟩
    · cases hkind
    · cases heq
      exact ⟨schema, slots, rfl, rfl, hname, rfl, by simp [get?_eq]⟩

end Task.Explains

namespace Plan

/-- When writing along a plan fails, it does so at a node that it comes to with a task, and what
it says holds of the node: its kind, an element that is an array, or a replacement that is
rejected. In documents nothing is undeclared. Among structured values, the node is a record, and
its schema declares the fields that are listed and not the one in question; the record is named
if there is no replacement for the field, and the field otherwise. -/
theorem write_eq_error (plan : Plan) :
    (∀ (root : Json) (replacements : Replacements Json) (e : ResolutionError),
      plan.write root replacements = .error e →
        (∃ l node task, plan.Meets replacements root l node task ∧
          task.Explains replacements l node e) ∧
        ∀ path field declared, e ≠ .undeclaredField path field declared) ∧
    ∀ (root : Datum) (replacements : Replacements Datum) (e : ResolutionError),
      plan.write root replacements = .error e →
        (∃ l node task, plan.Meets replacements root l node task ∧
          task.Explains replacements l node e) ∧
        ∀ path field declared, e = .undeclaredField path field declared →
          ∃ l schema slots,
            plan.Meets replacements root l (.struct schema slots) (.field field) ∧
            field ∉ schema.fieldNames ∧ declared = schema.fieldNames ∧
            path = if (replacements.get? (l.field field).text).isSome
              then (l.field field).text else l.text := by
  constructor
  · intro root replacements e h
    obtain ⟨l, node, task, hmeets, hexplains⟩ := exists_explains_of_write h
    exact ⟨⟨l, node, task, hmeets, hexplains⟩, fun _ _ _ => hexplains.ne_undeclared⟩
  · intro root replacements e h
    obtain ⟨l, node, task, hmeets, hexplains⟩ := exists_explains_of_write h
    refine ⟨⟨l, node, task, hmeets, hexplains⟩, ?_⟩
    rintro path field declared rfl
    obtain ⟨schema, slots, rfl, rfl, hfield, hdeclared, hpath⟩ :=
      hexplains.eq_struct_of_undeclared
    exact ⟨l, schema, slots, hmeets, hfield, hdeclared, hpath⟩

/-- A record that declares one field. -/
def singleField : Datum :=
  .struct (.struct {} [⟨"a", 0, .scalar .string {}⟩]) [some (.scalar (.string "x"))]

/-- Without a replacement for the field that is not declared, the record is named. -/
theorem write_undeclared :
    write ⟨"$.nope", [.field "nope"]⟩ singleField
        (SortedMap.ofList [("$.a", .scalar (.string "y"))]) =
      .error (.undeclaredField "$" "nope" ["a"]) ∧
    ∃ l schema slots, Meets ⟨"$.nope", [.field "nope"]⟩
      (SortedMap.ofList [("$.a", .scalar (.string "y"))]) singleField
      l (.struct schema slots) (.field "nope") ∧ schema.fieldNames = ["a"] := by
  have hwrite : write ⟨"$.nope", [.field "nope"]⟩ singleField
      (SortedMap.ofList [("$.a", .scalar (.string "y"))]) =
        .error (.undeclaredField "$" "nope" ["a"]) := rfl
  refine ⟨hwrite, ?_⟩
  obtain ⟨l, schema, slots, hmeets, -, hdeclared, -⟩ :=
    ((write_eq_error _).2 _ _ _ hwrite).2 _ _ _ rfl
  exact ⟨l, schema, slots, hmeets, hdeclared.symm⟩

/-- With a replacement for the field, the field is named, though writing comes to no node but
the record. -/
theorem write_undeclared_replaced :
    write ⟨"$.nope", [.field "nope"]⟩ singleField
        (SortedMap.ofList [("$.nope", .scalar (.string "y"))]) =
      .error (.undeclaredField "$.nope" "nope" ["a"]) ∧
    ∀ l node task, Meets ⟨"$.nope", [.field "nope"]⟩
      (SortedMap.ofList [("$.nope", .scalar (.string "y"))]) singleField l node task →
        node = singleField ∧ l.text = "$" := by
  refine ⟨rfl, ?_⟩
  rintro l node task ⟨done, rest, mid, htasks, hmid, hreach⟩
  -- there is one task, and none before it
  cases done with
  | nil =>
    obtain rfl := Except.ok.inj hmid
    obtain ⟨rfl, rfl⟩ := hreach
    exact ⟨rfl, rfl⟩
  | cons first others => simp at htasks

end Plan

end RecordCipher
