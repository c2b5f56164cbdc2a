import RecordCipher.Proofs.Plan.Failures
import RecordCipher.Proofs.Plan.Typing

/-!
# Writing twice

What was written along a plan is not undone when the same replacements are written again. A
replacement is set once more and takes back with it everything that was written below it, but the
remaining tasks go on with the same value as the first time, and come to the same. What was there
before is what they have made of it, and they make nothing else of that.

The second time, the replacements meet nodes that were written before. Whether a node takes a
value is decided by heads, which writing keeps: a field by the head of the node, and an element by
the head of the one that stands there, which is that of the replacement.

## Main definitions

* `SteadyTree`: nodes that take a value, or not, for their heads only
* `MatchHeads`: every replacement for an element finds one with its own head

## Main results

* `WrittenBelow.descends_again`: what the tasks have made of a node they make of it again
* `Task.exists_write_again`: a task can be written again
* `writeBelow_again`: writing again along tasks changes nothing
* `Plan.write_again`: writing again along a plan, in both flavors
-/

namespace RecordCipher

/-! ## What heads decide -/

/-- Nodes that take a value, or not, for their heads only: a field for the head of the node, and an
element whenever it has the head of what stands there. -/
class SteadyTree (α : Type) [Tree α] [LawfulTree α] : Prop extends AccountableTree α where
  setField_congr : ∀ {a a' b value : α} {name : String}, head a = head b →
    Tree.setField a name value = .ok () a' → ∃ b', Tree.setField b name value = .ok () b'
  setElement_of_head_eq : ∀ {node current value : α} {i : Nat},
    Tree.element? node i = some current → head current = head value →
      ∃ node', Tree.setElement node i value = .ok () node'

instance : SteadyTree Json where
  setField_congr {a a' b value name} h hset := by
    cases a with
    | object members =>
      cases b with
      | object members' => exact ⟨_, rfl⟩
      | _ => cases h
    | _ => cases hset
  setElement_of_head_eq {node current value i} hget _ := by
    cases node with
    | array items =>
      have hlt := (List.getElem?_eq_some_iff.mp hget).1
      exact ⟨_, Json.setElement_of_lt hlt value⟩
    | _ => cases hget

/-- A value can take the place of an element with its head. -/
theorem Datum.checkReplacement_of_head_eq {current value : Datum}
    (h : current.head = value.head) : checkReplacement current value = .ok () :=
  (checkReplacement_eq_ok_iff current value).mpr ⟨(type_congr h).symm, (schema?_congr h).symm⟩

instance : SteadyTree Datum where
  setField_congr {a a' b value name} h hset := by
    obtain ⟨schema, slots, field, rfl, hfield, hvalid, -⟩ := Datum.setField_eq_ok hset
    cases b with
    | struct schema' slots' =>
      obtain rfl : schema = schema' := Datum.Head.struct.inj h
      exact ⟨_, Datum.setField_of_validate hfield hvalid⟩
    | _ => cases h
  setElement_of_head_eq hget h :=
    Datum.exists_setElement hget (Datum.checkReplacement_of_head_eq h)

section

variable {α : Type} [Tree α] [LawfulTree α] {replacements : Replacements α} {task : Task}
  {rest : List Task} {here : Location} {node written out : α}

/-! ## The same children -/

/-- A tree is its head with the nodes one step below it. -/
theorem eq_of_child? {a b : α} (ha : Sound a) (hb : Sound b) (hhead : head a = head b)
    (h : ∀ step, Tree.child? a step = Tree.child? b step) : a = b := by
  refine LawfulTree.ext ha hb fun l => ?_
  cases l with
  | nil => rw [headAt_nil, headAt_nil, hhead]
  | cons step below => exact headAt_cons_congr (h step) below

omit [LawfulTree α] in
/-- The remaining tasks make one thing of what stands at a location. -/
theorem Descends.unique {before after after' : Option α}
    (h : Descends replacements rest here before after)
    (h' : Descends replacements rest here before after') : after = after' := by
  cases h with
  | absent => cases h'; rfl
  | null hnull =>
    cases h' with
    | null => rfl
    | below hnot => simp [hnull] at hnot
  | below hnot hwritten =>
    cases h' with
    | null hnull => simp [hnull] at hnot
    | below _ hwritten' => rw [Except.ok.inj (hwritten.symm.trans hwritten')]

/-- What the remaining tasks make of a node has its head. -/
theorem Descends.head_eq (hR : replacements.AllSound) {child : α} {after : Option α}
    (hs : Sound child) (h : Descends replacements rest here (some child) after) :
    ∃ child', after = some child' ∧ head child' = head child := by
  cases h with
  | null => exact ⟨child, rfl, rfl⟩
  | below _ hwritten => exact ⟨_, rfl, (writeBelow_keeps hR hs hwritten).2⟩

/-- What the tasks have made of a node they make of it again, if this holds of the remaining tasks
below it: a replacement is set as before, and goes the same way; everything else has gone it
already. -/
theorem WrittenBelow.descends_again (hR : replacements.AllSound)
    (again : ∀ {here : Location} {child child' : α}, Sound child →
      writeBelow replacements rest here child = .ok child' →
        writeBelow replacements rest here child' = .ok child')
    (hs : Sound node) (h : WrittenBelow replacements task rest here node out)
    {step : Location.Step} (hstep : task.LooksUp out step) :
    ∃ after, Tree.child? out step = .ok after ∧
      Descends replacements rest (here ++ [step]) (settled replacements here out step) after := by
  obtain ⟨after, hafter, hdescends⟩ := h.descends step (hstep.congr h.head_eq)
  refine ⟨after, hafter, ?_⟩
  cases hget : replacements.get? (here ++ [step]).text with
  | some value =>
    rw [settled_of_get? hget] at hdescends ⊢
    exact hdescends
  | none =>
    rw [settled_of_child? hget hafter]
    cases hbefore : settled replacements here node step with
    | none =>
      rw [hbefore] at hdescends
      cases hdescends
      exact .absent
    | some child =>
      have hchild := sound_settled hR hs hbefore
      rw [hbefore] at hdescends
      cases hdescends with
      | null hnull => exact .null hnull
      | below hnot hwritten =>
        have hhead := (writeBelow_keeps hR hchild hwritten).2
        exact .below (by rw [LawfulTree.isNull_congr hhead, hnot]) (again hchild hwritten)

/-! ## A task can be written again -/

/-- Every replacement for an element finds one with its own head in its place. -/
def MatchHeads (replacements : Replacements α) (here : Location) (positions : List Nat)
    (node : α) : Prop :=
  ∀ i ∈ positions, ∀ value, replacements.get? (here.index i).text = some value →
    ∃ current, Tree.element? node i = some current ∧ head current = head value

/-- What was set once is still matched: the element that was set is the replacement itself. -/
theorem MatchHeads.setElement {i : Nat} {positions : List Nat} {value node' : α}
    (h : MatchHeads replacements here positions node) (hs : Sound node)
    (hget : replacements.get? (here.index i).text = some value)
    (hset : Tree.setChild node (.index i) value = .ok () node') :
    MatchHeads replacements here positions node' := by
  intro j hj value' hget'
  have hreplaced := LawfulTree.replaced_setChild hs hset
  by_cases hji : j = i
  · subst hji
    obtain rfl := Option.some.inj (hget.symm.trans hget')
    exact ⟨value, Except.ok.inj hreplaced.child?_self, rfl⟩
  · obtain ⟨current, hcurrent, hhead⟩ := h j hj value' hget'
    have hsame := Except.ok.inj
      (hreplaced.child?_of_ne (.index j) fun heq => hji (Location.Step.index.inj heq))
    exact ⟨current, hsame.trans hcurrent, hhead⟩

/-- Replacements for elements can be set where elements with their heads stand. -/
theorem exists_setReplacedElements_again [SteadyTree α] (hR : replacements.AllSound)
    {positions : List Nat} (hs : Sound node) (h : MatchHeads replacements here positions node) :
    ∃ out, setReplacedElements replacements here positions node = .ok out := by
  induction positions generalizing node with
  | nil => exact ⟨node, rfl⟩
  | cons i rest ih =>
    have hrest : MatchHeads replacements here rest node :=
      fun j hj => h j (List.mem_cons_of_mem i hj)
    rw [setReplacedElements]
    cases hget : replacements.get? (here.index i).text with
    | none => exact ih hs hrest
    | some value =>
      obtain ⟨current, hcurrent, hhead⟩ := h i List.mem_cons_self value hget
      obtain ⟨node', hset⟩ := SteadyTree.setElement_of_head_eq hcurrent hhead
      have hset' : Tree.setChild node (.index i) value = .ok () node' := hset
      simp only [hset]
      exact ih (LawfulTree.sound_setChild hs (hR _ _ hget) hset') (hrest.setElement hs hget hset')

/-- Replacements keep the heads of the elements where they find their own. -/
theorem MatchHeads.exists_element {positions : List Nat} (hR : replacements.AllSound)
    (hs : Sound node) (h : MatchHeads replacements here positions node)
    (hset : setReplacedElements replacements here positions node = .ok written) {i : Nat}
    {item : α} (hitem : Tree.element? written i = some item) :
    ∃ before, Tree.element? node i = some before ∧ head before = head item := by
  obtain ⟨-, -, hsteps⟩ := setReplacedElements_spec hR hs hset
  obtain ⟨hreplaced, hkept⟩ := hsteps (.index i)
  by_cases hi : ∃ value, i ∈ positions ∧ replacements.get? (here.index i).text = some value
  · obtain ⟨value, hi, hget⟩ := hi
    obtain rfl : value = item :=
      Option.some.inj ((Except.ok.inj (hreplaced i value rfl hi hget)).symm.trans hitem)
    exact h i hi value hget
  · have hsame : Tree.child? written (.index i) = Tree.child? node (.index i) := by
      refine hkept fun j heq hj => Option.eq_none_iff_forall_ne_some.mpr fun value hget => ?_
      obtain rfl := Location.Step.index.inj heq
      exact hi ⟨value, hj, hget⟩
    exact ⟨item, (Except.ok.inj hsame).symm.trans hitem, rfl⟩

/-- Elements fit where others with the same heads do. -/
theorem Task.Fits.of_heads {selection : Selection} (h : (Task.elements selection).Fits node)
    (hhead : head out = head node) (hitems : ∀ i item, Tree.element? out i = some item →
      ∃ before, Tree.element? node i = some before ∧ head before = head item) :
    (Task.elements selection).Fits out := by
  obtain ⟨items, helems, hflat⟩ := h
  obtain ⟨items', helems'⟩ : ∃ items', Tree.elements? out = some items' := by
    have harray := isArray_congr hhead
    simpa [Tree.isArray, helems, Option.isSome_iff_exists] using harray
  refine ⟨items', helems', fun i item hget hsel hnull => ?_⟩
  obtain ⟨before, hbefore, hheads⟩ := hitems i item (by simp [Tree.element?, helems', hget])
  have hget' : items[i]? = some before := by simpa [Tree.element?, helems] using hbefore
  rw [← isArray_congr hheads]
  exact hflat i before hget' hsel (by rw [LawfulTree.isNull_congr hheads, hnull])

/-- A field that was set can be set again, in a node with the same head. -/
theorem exists_setReplacedField_again [SteadyTree α] {name : String}
    (h : setReplacedField replacements here name node = .ok written)
    (hhead : head out = head node) (hfits : (Task.field name).Fits out) :
    ∃ again, setReplacedField replacements here name out = .ok again ∧
      (Task.field name).Fits again := by
  rcases setReplacedField_spec h with ⟨hget, -⟩ | ⟨value, hget, hset⟩
  · exact ⟨out, by rw [setReplacedField, hget], hfits⟩
  · have hset : Tree.setField node name value = .ok () written := hset
    obtain ⟨again, hagain⟩ := SteadyTree.setField_congr hhead.symm hset
    exact ⟨again, by simp only [setReplacedField, hget, hagain, Outcome.ofCopy],
      AccountableTree.field?_setField hagain⟩

/-- What the tasks have made of a replacement has its head. -/
theorem WrittenBelow.matchHeads (hR : replacements.AllSound) {selection : Selection}
    (h : WrittenBelow replacements (.elements selection) rest here node out) {items : List α}
    (hitems : Tree.elements? out = some items) :
    MatchHeads replacements here (selection.positions items.length) out := by
  intro i hi value hget
  obtain ⟨hsel, hlt⟩ := (Selection.mem_positions selection items.length i).mp hi
  have hlooks : (Task.elements selection).LooksUp out (.index i) :=
    .of_child? hsel (by rw [Tree.child?_index hitems, List.getElem?_eq_getElem hlt])
  obtain ⟨after, hafter, hdescends⟩ := h.descends _ (hlooks.congr h.head_eq)
  rw [settled_of_get? hget] at hdescends
  obtain ⟨current, rfl, hhead⟩ := hdescends.head_eq hR (hR _ _ hget)
  exact ⟨current, Except.ok.inj hafter, hhead⟩

/-- Elements that were replaced can be replaced again, and none of the replacements is an array,
because what the tasks have made of them is none. -/
theorem exists_setReplacedElements_fits [SteadyTree α] (hR : replacements.AllSound)
    {selection : Selection} (h : WrittenBelow replacements (.elements selection) rest here node out)
    {items : List α} (hitems : Tree.elements? out = some items) :
    ∃ again, setReplacedElements replacements here (selection.positions items.length) out =
      .ok again ∧ (Task.elements selection).Fits again := by
  have hmatch := h.matchHeads hR hitems
  obtain ⟨again, hagain⟩ := exists_setReplacedElements_again hR h.sound hmatch
  obtain ⟨-, hhead, -⟩ := setReplacedElements_spec hR h.sound hagain
  exact ⟨again, hagain, h.fits.of_heads hhead fun _ _ => hmatch.exists_element hR h.sound hagain⟩

/-- What a task has written can be written again, in what the tasks have made of the node. -/
theorem Task.exists_write_again [SteadyTree α] (hR : replacements.AllSound)
    (hwrite : task.write replacements here node = .ok written)
    (h : WrittenBelow replacements task rest here node out) :
    ∃ again, task.write replacements here out = .ok again := by
  cases task with
  | field name =>
    obtain ⟨hset, -⟩ := write_field_eq_ok_iff.mp hwrite
    obtain ⟨again, hagain, hfits⟩ := exists_setReplacedField_again hset h.head_eq h.fits
    exact ⟨again, write_field_eq_ok_iff.mpr ⟨hagain, fits_field_iff.mp hfits⟩⟩
  | elements selection =>
    obtain ⟨items, hitems, -⟩ := h.fits
    obtain ⟨again, hagain, hfits⟩ := exists_setReplacedElements_fits hR h hitems
    obtain ⟨focus, hfocus, hcheck⟩ := (fits_elements_iff here).mp hfits
    exact ⟨again, write_elements_eq_ok_iff.mpr ⟨items, focus, hitems, hagain, hfocus, hcheck⟩⟩

/-! ## All tasks -/

/-- Writing again along tasks changes nothing. -/
theorem writeBelow_again [SteadyTree α] (hR : replacements.AllSound) {tasks : List Task}
    (hs : Sound node) (h : writeBelow replacements tasks here node = .ok out) :
    writeBelow replacements tasks here out = .ok out := by
  -- Induction on the tasks, for all nodes at once: the others work on many of them.
  induction tasks generalizing here node out with
  | nil => rfl
  | cons task rest ih =>
    have first := writeBelow_cons hR hs h
    have again : ∀ step, task.LooksUp out step → ∃ after, Tree.child? out step = .ok after ∧
        Descends replacements rest (here ++ [step]) (settled replacements here out step) after :=
      fun step hstep => first.descends_again hR (fun hs h => ih hs h) hs hstep
    obtain ⟨out', hout'⟩ : ∃ out', writeBelow replacements (task :: rest) here out = .ok out' := by
      obtain ⟨written, hwrite, -⟩ := bind_eq_ok_iff.mp h
      obtain ⟨written', hwrite'⟩ := Task.exists_write_again hR hwrite first
      have hspec := Task.write_spec hR first.sound hwrite'
      obtain ⟨out', hout'⟩ : ∃ out',
          rewriteReached (writeBelow replacements rest) [task] here written' = .ok out' := by
        apply exists_rewriteReached
        intro step child hsel hchild hnull
        have hlooks := (Task.LooksUp.of_child? hsel hchild).congr hspec.head_eq
        have hsettled : settled replacements here out step = some child := by
          simpa using (hspec.child?_of_looksUp step hlooks).symm.trans hchild
        obtain ⟨after, -, hdescends⟩ := again step hlooks
        rw [hsettled] at hdescends
        obtain ⟨child', -, hwritten⟩ := hdescends.of_not_null hnull
        exact ⟨child', hwritten⟩
      exact ⟨out', bind_eq_ok_iff.mpr ⟨written', hwrite', hout'⟩⟩
    -- the tasks make of the node what they have made of it before, step by step
    have second := writeBelow_cons hR first.sound hout'
    obtain rfl : out' = out := by
      refine eq_of_child? second.sound first.sound second.head_eq fun step => ?_
      by_cases hstep : task.LooksUp out step
      · obtain ⟨after, hafter, hdescends⟩ := again step hstep
        obtain ⟨after', hafter', hdescends'⟩ := second.descends step hstep
        rw [hafter, hafter', hdescends'.unique hdescends]
      · exact second.unchanged step hstep
    exact hout'

theorem Plan.write_again_of_steady [SteadyTree α] (hR : replacements.AllSound) {plan : Plan}
    {root : α} (hs : Sound root) (h : plan.write root replacements = .ok out) :
    plan.write out replacements = .ok out := by
  rw [Plan.write_eq_ok_iff] at h ⊢
  split at h
  · next hempty => rw [if_pos hempty]
  · next hempty =>
    rw [if_neg hempty]
    split at h
    · next htasks =>
      rw [if_pos htasks, h]
      cases replacements.get? Location.root.text <;> rfl
    · next htasks =>
      rw [if_neg htasks]
      exact writeBelow_again hR hs h

end

/-- Writing the same replacements along a plan a second time succeeds and changes nothing, whatever
they replace: absent fields, nodes on the way, and what is below them. -/
theorem Plan.write_again (plan : Plan) :
    (∀ (root out : Json) (replacements : Replacements Json), Sound root → replacements.AllSound →
      plan.write root replacements = .ok out → plan.write out replacements = .ok out) ∧
    ∀ (root out : Datum) (replacements : Replacements Datum), Sound root →
      replacements.AllSound → plan.write root replacements = .ok out →
        plan.write out replacements = .ok out :=
  ⟨fun _ _ _ hs hR h => Plan.write_again_of_steady hR hs h,
    fun _ _ _ hs hR h => Plan.write_again_of_steady hR hs h⟩

/-- An element is replaced, and in the replacement an absent member is set to null; a record in an
array is replaced, and its field in the replacement. -/
theorem Plan.write_again_element_and_field :
    Plan.write ⟨"$.a[*].b", [.field "a", .elements .every, .field "b"]⟩
        (Json.object [("a", .array [.object [("b", .null), ("c", .string "y")]])])
        (SortedMap.ofList [("$.a[0]", .object [("c", .string "y")]), ("$.a[0].b", .null)]) =
      .ok (.object [("a", .array [.object [("b", .null), ("c", .string "y")]])]) ∧
    Plan.write ⟨"$.l[*].t", [.field "l", .elements .every, .field "t"]⟩
        (Datum.struct (.struct {} [⟨"l", 0, .array {} (.struct {} [⟨"t", 0, .scalar .string {}⟩])⟩])
          [some (.array [.struct (.struct {} [⟨"t", 0, .scalar .string {}⟩])
            [some (.scalar (.string "z"))]])])
        (SortedMap.ofList [("$.l[0]", .struct (.struct {} [⟨"t", 0, .scalar .string {}⟩]) [none]),
          ("$.l[0].t", .scalar (.string "z"))]) =
      .ok (.struct (.struct {} [⟨"l", 0, .array {} (.struct {} [⟨"t", 0, .scalar .string {}⟩])⟩])
        [some (.array [.struct (.struct {} [⟨"t", 0, .scalar .string {}⟩])
          [some (.scalar (.string "z"))]])]) := by
  constructor
  · refine (Plan.write_again _).1 (Json.object [("a", .array [.object [("b", .string "x")]])])
      _ _ ?_ ?_ rfl
    · show Json.Sound _
      simp [InKeyOrder]
    · apply Replacements.allSound_ofList
      show ∀ entry ∈ _, Json.Sound (Prod.snd entry)
      simp [InKeyOrder]
  · refine (Plan.write_again _).2
      (Datum.struct (.struct {} [⟨"l", 0, .array {} (.struct {} [⟨"t", 0, .scalar .string {}⟩])⟩])
        [some (.array [.struct (.struct {} [⟨"t", 0, .scalar .string {}⟩])
          [some (.scalar (.string "x"))]])]) _ _ ?_ ?_ rfl
    · show Datum.Sound _
      simp [Schema.fields, Schema.fieldNames, Schema.Placed, List.range_succ]
    · apply Replacements.allSound_ofList
      show ∀ entry ∈ _, Datum.Sound (Prod.snd entry)
      simp [Schema.fields, Schema.fieldNames, Schema.Placed, List.range_succ]

end RecordCipher
